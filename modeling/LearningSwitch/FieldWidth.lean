import LearningSwitch.MatchExact
import Mathlib.Data.List.Induction

namespace LearningSwitch

variable {M : Match}

/-- The calls `add_rule(i, keys i)`, for the rule numbers `i` of a list in its order. -/
def MatchExact.addKeys (s : MatchExact M) (keys : Nat → KeyType M) (numbers : List Nat) :
    MatchExact M :=
  numbers.foldl (fun s i => s.addRule i (keys i)) s

theorem MatchExact.indexes_addKeys (keys : Nat → KeyType M) (numbers : List Nat) :
    ((empty : MatchExact M).addKeys keys numbers).Indexes fun i key =>
      i ∈ numbers ∧ keys i = key := by
  induction numbers using List.reverseRecOn with
  | nil => exact indexes_empty.of_iff (by simp)
  | append_singleton numbers n ih =>
    rw [addKeys, List.foldl_concat]
    refine (ih.addRule n (keys n)).of_iff fun i key => ?_
    rw [List.mem_append, List.mem_singleton]
    constructor
    · rintro (⟨hm, hk⟩ | ⟨rfl, rfl⟩)
      · exact ⟨Or.inl hm, hk⟩
      · exact ⟨Or.inr rfl, rfl⟩
    · intro h
      obtain ⟨hm | rfl, hk⟩ := h
      · exact Or.inl ⟨hm, hk⟩
      · exact Or.inr ⟨rfl, hk.symm⟩

/-- The key begins with the packet's four bytes at the offset of the field. -/
def Match.Begins (M : Match) (packet : Packet) (key : KeyType M) : Prop :=
  ∀ i : Fin M.sizeT, i.val < 4 → key i = packet (M.offsetT + i)

theorem Match.overlay_eq_self {packet : Packet} {key : KeyType M} (h : M.Begins packet key) :
    M.overlay key packet = key := by
  funext i
  unfold Match.overlay
  split
  next hi => exact (h i hi).symm
  next => rfl

theorem Match.overlay_begins (field : KeyType M) (packet : Packet) :
    M.Begins packet (M.overlay field packet) := by
  intro i hi
  rw [Match.overlay, if_pos hi]

theorem Match.exists_field (key : KeyType M) : ∃ packet, M.field packet = key := by
  refine ⟨fun j => if h : j - M.offsetT < M.sizeT then key ⟨j - M.offsetT, h⟩ else 0, ?_⟩
  funext i
  simp [Match.field]

theorem Match.field_begins (packet : Packet) : M.Begins packet (M.field packet) := by
  intro i _
  rfl

namespace MatchExact

/-- Whatever the local key array holds on entry, `find` stays inside it and selects the numbers
whose key equals the whole declared field. -/
def ComparesField (s : MatchExact M) (keys : Nat → KeyType M) (numbers : List Nat)
    (packet : Packet) : Prop :=
  ∀ field my bits, ∃ found selected,
    s.find field my bits packet = .ok (found, selected, bits &&& selected) ∧
    ∀ i, selected.getLsbD i = true ↔ i ∈ numbers ∧ keys i = M.field packet

/-- A key array narrower than the four copied bytes is overrun by every lookup. -/
theorem find_narrow {s : MatchExact M} (hs : M.sizeT < 4) (field : KeyType M) (my bits : BitSetT)
    (packet : Packet) : s.find field my bits packet = .error .stackOverrun := by
  have hcopy : copyField field packet = .error .stackOverrun := by
    rw [copyField, if_neg (by omega)]
  rw [MatchExact.find, hcopy, StepRun.error_bind]

variable {keys : Nat → KeyType M} {numbers : List Nat} {packet : Packet}

/-- Whatever completes the four copied bytes, they select the numbers of the whole field. -/
theorem ComparesField.overlay_iff
    (h : ((empty : MatchExact M).addKeys keys numbers).ComparesField keys numbers packet)
    (hs : 4 ≤ M.sizeT) (field : KeyType M) (i : Nat) :
    (i ∈ numbers ∧ keys i = M.overlay field packet) ↔ i ∈ numbers ∧ keys i = M.field packet := by
  obtain ⟨_, selected, hrun, hbits⟩ := h field 0 0
  rcases (indexes_addKeys keys numbers).find hs field packet with
    ⟨_, selected', hrun', _, _, hbits'⟩ | ⟨_, _, _, hthrow⟩
  · rw [hrun' 0 0] at hrun
    cases hrun
    exact (hbits' i).symm.trans (hbits i)
  · obtain ⟨q, hq⟩ := hthrow 0 0
    rw [hq] at hrun
    cases hrun

theorem ComparesField.not_begins
    (h : ((empty : MatchExact M).addKeys keys numbers).ComparesField keys numbers packet)
    (hs : 4 < M.sizeT) {i : Nat} (hi : i ∈ numbers) : ¬M.Begins packet (keys i) := by
  intro hbegins
  -- the leftover bytes complete the copied ones to key `i`
  have hself := (M.overlay_eq_self hbegins).symm
  have hhit := (h.overlay_iff hs.le (keys i) i).mp ⟨hi, hself⟩
  -- and other leftover bytes complete them to another key
  let other : KeyType M := fun j => keys i j + 1
  have hother := ((h.overlay_iff hs.le other i).mpr hhit).2
  have hbyte := congrFun hother ⟨4, hs⟩
  simp [Match.overlay, other] at hbyte

/-- The copy of four bytes compares the declared field exactly when the field is four bytes wide,
or wider with no key that begins with the four bytes. -/
theorem comparesField_iff (keys : Nat → KeyType M) (numbers : List Nat) (packet : Packet) :
    ((empty : MatchExact M).addKeys keys numbers).ComparesField keys numbers packet ↔
      (M.sizeT = 4 ∧ ∀ i ∈ numbers, keys i = M.field packet → i < maxTableSize) ∨
        (4 < M.sizeT ∧ ∀ i ∈ numbers, ¬M.Begins packet (keys i)) := by
  have hfind := (indexes_addKeys keys numbers).find (M := M)
  constructor
  · intro h
    rcases Nat.lt_trichotomy M.sizeT 4 with hs | hs | hs
    · obtain ⟨_, _, hrun, _⟩ := h (M.field packet) 0 0
      rw [find_narrow hs] at hrun
      cases hrun
    · refine Or.inl ⟨hs, fun i hi hk => ?_⟩
      obtain ⟨_, selected, _, hbits⟩ := h (M.field packet) 0 0
      exact BitVec.lt_of_getLsbD ((hbits i).mpr ⟨hi, hk⟩)
    · exact Or.inr ⟨hs, fun i hi => h.not_begins hs hi⟩
  · intro h field my bits
    rcases h with ⟨hs, hbound⟩ | ⟨hs, hnone⟩
    · have hlookup := hfind (by omega) field packet
      rw [M.overlay_four hs] at hlookup
      rcases hlookup with ⟨found, selected, hrun, _, _, hbits⟩ | ⟨i, hi, hlarge, _⟩
      · exact ⟨found, selected, hrun my bits, hbits⟩
      · have hsmall := hbound i hi.1 hi.2
        omega
    · rcases hfind (by omega) field packet with
        ⟨found, selected, hrun, _, _, hbits⟩ | ⟨i, hi, _, _⟩
      · refine ⟨found, selected, hrun my bits, fun i => (hbits i).trans ?_⟩
        constructor
        · intro h
          obtain ⟨hi, hk⟩ := h
          exact absurd (hk ▸ M.overlay_begins field packet) (hnone i hi)
        · intro h
          obtain ⟨hi, hk⟩ := h
          exact absurd (hk ▸ M.field_begins packet) (hnone i hi)
      · exact absurd (hi.2 ▸ M.overlay_begins field packet) (hnone i hi.1)

/-- An EtherType field lets `find` write past the key array, and a MAC address field is compared
by its first four bytes and whatever the array held. -/
theorem not_comparesField :
    ¬((empty : MatchExact ⟨2, 12⟩).addKeys (fun _ _ => 8) [0]).ComparesField (fun _ _ => 8) [0]
        (fun _ => 8) ∧
      ¬((empty : MatchExact ⟨6, 0⟩).addKeys (fun _ _ => 8) [0]).ComparesField (fun _ _ => 8) [0]
        (fun i => if i < 4 then 8 else 9) := by
  constructor
  · intro h
    obtain ⟨_, _, hrun, _⟩ := h (fun _ => 0) 0 0
    rw [find_narrow (by decide)] at hrun
    cases hrun
  · intro h
    refine h.not_begins (by decide) (List.mem_singleton.mpr rfl) fun i hi => ?_
    simp [hi]

end MatchExact

end LearningSwitch
