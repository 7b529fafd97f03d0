import LearningSwitch.Parse

namespace LearningSwitch

/-- The string is a number as a whole, and `strtoul` makes a mask of it. -/
def ValidPortmask (s : CNumber.CString) : Prop :=
  s.bytes ≠ [] ∧ (CNumber.strtoul s 16).2 = [] ∧
    1 ≤ (CNumber.strtoul s 16).1.toNat ∧ (CNumber.strtoul s 16).1.toNat ≤ 0xFFFFFFFF

/-- Option `-p` is accepted with a valid argument, which it stores, and otherwise reported. -/
def PortmaskExact (s : CNumber.CString) : Prop :=
  ∀ prgname o,
    (ValidPortmask s → ∃ next : Options,
      next.enabledPortMask.toNat = (CNumber.strtoul s 16).1.toNat ∧ ∀ opts optind,
        parseArgs prgname o (.portmask s :: opts) optind = parseArgs prgname next opts optind) ∧
    (¬ValidPortmask s → ∃ last : Options,
      last.printed = o.printed ++ ["invalid portmask\n", usage prgname] ∧ ∀ opts optind,
        parseArgs prgname o (.portmask s :: opts) optind = (-1, last))

variable {s : CNumber.CString}

theorem ValidPortmask.complete (h : ValidPortmask s) :
    s.bytes ≠ [] ∧ (CNumber.strtoul s 16).2 = [] ∧ (CNumber.strtoul s 16).1.toNat ≠ 0 :=
  ⟨h.1, h.2.1, Nat.ne_of_gt h.2.2.1⟩

/-- What `-p` makes of its argument: the low 32 bits of a complete number but 0, and otherwise
the error code -1 as a mask of all ports. -/
theorem parsePortmask_toNat (s : CNumber.CString) :
    (parsePortmask s).toUInt32.toNat =
      if s.bytes ≠ [] ∧ (CNumber.strtoul s 16).2 = [] ∧ (CNumber.strtoul s 16).1.toNat ≠ 0 then
        (CNumber.strtoul s 16).1.toNat % 2 ^ 32
      else 2 ^ 32 - 1 := by
  have hbad := malformed_iff (CNumber.strtoul_suffix s 16)
  unfold parsePortmask
  generalize CNumber.strtoul s 16 = r at hbad ⊢
  obtain ⟨pm, rest⟩ := r
  by_cases hm : malformed s rest
  · have hcond : ¬(s.bytes ≠ [] ∧ rest = [] ∧ pm.toNat ≠ 0) := fun hc => hbad.mp hm ⟨hc.1, hc.2.1⟩
    simp only [if_pos hm, if_neg hcond]
    rfl
  · have hcomplete := not_not.mp (mt hbad.mpr hm)
    by_cases hz : pm = 0
    · have hcond : ¬(s.bytes ≠ [] ∧ rest = [] ∧ pm.toNat ≠ 0) := fun hc => hc.2.2 (by rw [hz]; rfl)
      simp only [if_neg hm, if_pos hz, if_neg hcond]
      rfl
    · have hcond : s.bytes ≠ [] ∧ rest = [] ∧ pm.toNat ≠ 0 :=
        ⟨hcomplete.1, hcomplete.2, fun he => hz (UInt64.toNat_inj.mp he)⟩
      simp only [if_neg hm, if_neg hz, if_pos hcond, UInt32.toUInt32_toInt32]
      exact UInt64.toNat_toUInt32 pm

theorem parseOpt_portmask_ok (prgname : String) (o : Options)
    (h : (parsePortmask s).toUInt32 ≠ 0) :
    parseOpt prgname o (.portmask s) =
      .ok { o with enabledPortMask := (parsePortmask s).toUInt32 } :=
  if_neg h

theorem parseOpt_portmask_error (prgname : String) (o : Options)
    (h : (parsePortmask s).toUInt32 = 0) :
    parseOpt prgname o (.portmask s) =
      .error (Options.print { o with enabledPortMask := (parsePortmask s).toUInt32 }
        ["invalid portmask\n", usage prgname]) :=
  if_pos h

/-- An invalid argument that leaves a nonzero mask is taken for a valid one. -/
theorem not_portmaskExact_of_ne_zero (hvalid : ¬ValidPortmask s)
    (hmask : (parsePortmask s).toUInt32 ≠ 0) : ¬PortmaskExact s := by
  intro h
  obtain ⟨last, _, hargs⟩ := (h "" ⟨0, 0, 0, []⟩).2 hvalid
  have hreturn := hargs [] 1
  rw [parseArgs_ok (parseOpt_portmask_ok "" _ hmask)] at hreturn
  exact absurd (congrArg Prod.fst hreturn) (show ¬(1 - 1 : Int32) = -1 by decide)

/-- Option `-p` does what it should for a complete number that is not 0 and either fits the mask
or loses all its bits in it. -/
theorem portmaskExact_iff (s : CNumber.CString) :
    PortmaskExact s ↔ s.bytes ≠ [] ∧ (CNumber.strtoul s 16).2 = [] ∧
      (CNumber.strtoul s 16).1.toNat ≠ 0 ∧
      ((CNumber.strtoul s 16).1.toNat < 2 ^ 32 ∨ 2 ^ 32 ∣ (CNumber.strtoul s 16).1.toNat) := by
  have hmask := parsePortmask_toNat s
  constructor
  · intro h
    have hzero : ¬ValidPortmask s → (parsePortmask s).toUInt32.toNat = 0 := by
      intro hvalid
      by_contra hne
      exact not_portmaskExact_of_ne_zero hvalid (fun he => hne (by rw [he]; rfl)) h
    by_cases hvalid : ValidPortmask s
    · obtain ⟨hne, hrest, hv⟩ := hvalid.complete
      exact ⟨hne, hrest, hv, Or.inl (Nat.lt_of_le_of_lt hvalid.2.2.2 (by decide))⟩
    · rw [hzero hvalid] at hmask
      split at hmask
      next hcomplete =>
        exact ⟨hcomplete.1, hcomplete.2.1, hcomplete.2.2,
          Or.inr (Nat.dvd_of_mod_eq_zero hmask.symm)⟩
      next => omega
  · intro h prgname o
    obtain ⟨hne, hrest, hv, hrange⟩ := h
    rw [if_pos ⟨hne, hrest, hv⟩] at hmask
    refine ⟨fun hvalid => ?_, fun hvalid => ?_⟩
    · have hsmall := hvalid.2.2.2
      rw [Nat.mod_eq_of_lt (by omega)] at hmask
      have hnz : (parsePortmask s).toUInt32 ≠ 0 := by
        intro he
        rw [he] at hmask
        exact hv hmask.symm
      exact ⟨_, hmask, parseArgs_ok (parseOpt_portmask_ok prgname o hnz)⟩
    · have hlarge : ¬(CNumber.strtoul s 16).1.toNat < 2 ^ 32 := by
        intro hlt
        exact hvalid ⟨hne, hrest, Nat.pos_of_ne_zero hv, by omega⟩
      rw [Nat.mod_eq_zero_of_dvd (hrange.resolve_left hlarge)] at hmask
      have hz : (parsePortmask s).toUInt32 = 0 := UInt32.toNat_inj.mp hmask
      exact ⟨_, rfl, parseArgs_error (parseOpt_portmask_error prgname o hz)⟩

def emptyString : CNumber.CString := ⟨[], by decide⟩

/-- The empty argument enables every port. -/
theorem not_portmaskExact : ¬PortmaskExact emptyString :=
  not_portmaskExact_of_ne_zero (fun h => h.1 rfl) (by decide)

end LearningSwitch
