import LearningSwitch.MatchRange

namespace LearningSwitch

namespace MatchRange

variable {lib : IntervalLib} {M : Match}

/-- The calls `add_rule(i, rules[i])` in the order of the rule numbers. -/
def addRules (s : MatchRange lib M) (rules : List (RangeKeyType M)) : MatchRange lib M :=
  rules.zipIdx.foldl (fun s r => s.addRule r.2 r.1) s

/-- The range contains the number. -/
def Covers (range : RangeKeyType M) (k : Nat) : Prop :=
  range.1.val ≤ k ∧ k ≤ range.2.val

/-- Rule `i` is the first one, rule 0 left aside, whose range contains the number. -/
structure Owns (rules : List (RangeKeyType M)) (i k : Nat) : Prop where
  pos : 0 < i
  covers : ∃ range, rules[i]? = some range ∧ Covers range k
  first : ∀ j range, 0 < j → j < i → rules[j]? = some range → ¬Covers range k

def pieces (rules : List (RangeKeyType M)) : List (IntervalMap.Segment Nat Nat) :=
  rules.zipIdx.map fun r => ⟨r.1.1, r.1.2, r.2⟩

instance (range : RangeKeyType M) (k : Nat) : Decidable (Covers range k) :=
  inferInstanceAs (Decidable (range.1.val ≤ k ∧ k ≤ range.2.val))

theorem interval_addRules (rules : List (RangeKeyType M)) :
    ((empty : MatchRange lib M).addRules rules).interval = lib.insertAll (pieces rules) := by
  have hrun : ∀ (s : MatchRange lib M) (l : List (RangeKeyType M × Nat)),
      (l.foldl (fun s r => s.addRule r.2 r.1) s).interval =
        (l.map fun r => (⟨r.1.1, r.1.2, r.2⟩ : IntervalMap.Segment Nat Nat)).foldl
          lib.insert s.interval := by
    intro s l
    induction l generalizing s with
    | nil => rfl
    | cons r l ih => rw [List.foldl_cons, ih, List.map_cons, List.foldl_cons]; rfl
  exact hrun empty rules.zipIdx

theorem pieces_getElem? (rules : List (RangeKeyType M)) (i : Nat) :
    (pieces rules)[i]? = rules[i]?.map fun range => ⟨range.1, range.2, i⟩ := by
  rw [pieces, List.getElem?_map, List.getElem?_zipIdx, Option.map_map, Nat.zero_add]
  rfl

theorem findSome?_eq_some_iff_getElem? {α β : Type} {l : List α} {f : α → Option β} {b : β} :
    l.findSome? f = some b ↔ ∃ (i : Nat) (a : α), l[i]? = some a ∧ f a = some b ∧
      ∀ (j : Nat) (a' : α), j < i → l[j]? = some a' → f a' = none := by
  induction l with
  | nil => simp
  | cons x xs ih =>
    rw [List.findSome?_cons]
    cases hx : f x with
    | some c =>
      constructor
      · intro h
        exact ⟨0, x, rfl, hx.trans h, fun j _ hj => absurd hj (Nat.not_lt_zero j)⟩
      · intro h
        obtain ⟨i, a, hi, ha, hbefore⟩ := h
        cases i with
        | zero =>
          rw [← Option.some.inj hi, hx] at ha
          exact ha
        | succ i =>
          have hnone := hbefore 0 x (Nat.zero_lt_succ i) rfl
          rw [hx] at hnone
          cases hnone
    | none =>
      show xs.findSome? f = some b ↔ _
      rw [ih]
      constructor
      · intro h
        obtain ⟨i, a, hi, ha, hbefore⟩ := h
        refine ⟨i + 1, a, hi, ha, fun j a' hj ha' => ?_⟩
        cases j with
        | zero => rw [← Option.some.inj ha', hx]
        | succ j => exact hbefore j a' (Nat.lt_of_succ_lt_succ hj) ha'
      · intro h
        obtain ⟨i, a, hi, ha, hbefore⟩ := h
        cases i with
        | zero =>
          rw [← Option.some.inj hi, hx] at ha
          cases ha
        | succ i => exact ⟨i, a, hi, ha, fun j a' hj => hbefore (j + 1) a' (Nat.succ_lt_succ hj)⟩

theorem gain_eq_some_iff {piece : IntervalMap.Segment Nat Nat} {k v : Nat} :
    IntervalMap.gain k piece = some v ↔ piece.Contains k ∧ piece.value ≠ 0 ∧ piece.value = v := by
  unfold IntervalMap.gain
  split
  next h => simp [h]
  next h => simpa using fun hc hv => absurd ⟨hc, hv⟩ h

theorem gain_of_covers {range : RangeKeyType M} {i k : Nat} (hi : 0 < i) (hc : Covers range k) :
    IntervalMap.gain k (⟨range.1, range.2, i⟩ : IntervalMap.Segment Nat Nat) = some i :=
  gain_eq_some_iff.mpr ⟨hc, Nat.pos_iff_ne_zero.mp hi, rfl⟩

theorem owner_iff {rules : List (RangeKeyType M)} {k i : Nat} :
    (pieces rules).findSome? (IntervalMap.gain k) = some i ↔ Owns rules i k := by
  rw [findSome?_eq_some_iff_getElem?]
  constructor
  · intro h
    obtain ⟨n, piece, hpiece, hgain, hbefore⟩ := h
    rw [pieces_getElem?] at hpiece
    obtain ⟨range, hrange, rfl⟩ := Option.map_eq_some_iff.mp hpiece
    obtain ⟨hcovers, hn, rfl⟩ := gain_eq_some_iff.mp hgain
    refine ⟨Nat.pos_of_ne_zero hn, ⟨range, hrange, hcovers⟩, fun j other hj hlt hother hc => ?_⟩
    have hnone := hbefore j ⟨other.1, other.2, j⟩ hlt (by rw [pieces_getElem?, hother]; rfl)
    rw [gain_of_covers hj hc] at hnone
    cases hnone
  · intro h
    obtain ⟨hpos, ⟨range, hrange, hcovers⟩, hfirst⟩ := h
    refine ⟨i, ⟨range.1, range.2, i⟩, by rw [pieces_getElem?, hrange]; rfl,
      gain_of_covers hpos hcovers, fun j piece hlt hpiece => ?_⟩
    rw [pieces_getElem?] at hpiece
    obtain ⟨other, hother, rfl⟩ := Option.map_eq_some_iff.mp hpiece
    rw [IntervalMap.gain, if_neg]
    intro h
    obtain ⟨hc, hj⟩ := h
    exact hfirst j other (Nat.pos_of_ne_zero hj) hlt hother hc

/-- A number within the range of some rule but rule 0 is owned by one of them. -/
theorem exists_owner {rules : List (RangeKeyType M)} {i k : Nat} {range : RangeKeyType M}
    (hi : 0 < i) (hrange : rules[i]? = some range) (hc : Covers range k) :
    ∃ j, Owns rules j k := by
  cases hfind : (pieces rules).findSome? (IntervalMap.gain k) with
  | some j => exact ⟨j, owner_iff.mp hfind⟩
  | none =>
    have hpiece : (⟨range.1, range.2, i⟩ : IntervalMap.Segment Nat Nat) ∈ pieces rules :=
      List.mem_of_getElem? (i := i) (by rw [pieces_getElem?, hrange]; rfl)
    have hgain := List.findSome?_eq_none_iff.mp hfind _ hpiece
    rw [gain_of_covers hi hc] at hgain
    cases hgain

theorem pos_of_covers {rules : List (RangeKeyType M)} {i k : Nat}
    (hzero : ∀ range, rules[0]? = some range → ¬Covers range k) {range : RangeKeyType M}
    (hrange : rules[i]? = some range) (hc : Covers range k) : 0 < i := by
  refine Nat.pos_of_ne_zero fun hi => ?_
  subst hi
  exact hzero range hrange hc

theorem exists_owner_iff {rules : List (RangeKeyType M)} {k : Nat}
    (hzero : ∀ range, rules[0]? = some range → ¬Covers range k) :
    (∃ i, Owns rules i k) ↔ ∃ range ∈ rules, Covers range k := by
  constructor
  · intro h
    obtain ⟨i, howns⟩ := h
    obtain ⟨range, hrange, hc⟩ := howns.covers
    exact ⟨range, List.mem_of_getElem? hrange, hc⟩
  · intro h
    obtain ⟨range, hmem, hc⟩ := h
    obtain ⟨i, hrange⟩ := List.mem_iff_getElem?.mp hmem
    exact exists_owner (pos_of_covers hzero hrange hc) hrange hc

/-- Where ranges that contain the field own a number from it on and ranges above it own none, the
owners from the field on are the rules whose range contains it. -/
theorem owned_iff_covers {rules : List (RangeKeyType M)} {k : Nat}
    (hzero : ∀ range, rules[0]? = some range → ¬Covers range k)
    (hrest : (∀ range ∈ rules, ¬Covers range k) ∨ ∀ i range, 0 < i → rules[i]? = some range →
      (Covers range k → ∃ l, k ≤ l ∧ Owns rules i l) ∧
      (k < range.1.val → ∀ l, ¬Owns rules i l)) (i : Nat) :
    ((∃ j, Owns rules j k) ∧ ∃ l, k ≤ l ∧ Owns rules i l) ↔
      ∃ range, rules[i]? = some range ∧ Covers range k := by
  constructor
  · intro h
    obtain ⟨⟨j, hj⟩, l, hl, howns⟩ := h
    obtain ⟨range, hrange, hcovers⟩ := howns.covers
    obtain ⟨other, hother, hc⟩ := hj.covers
    rcases hrest with hnone | hrest
    · exact absurd hc (hnone other (List.mem_of_getElem? hother))
    · have hbelow : ¬k < range.1.val :=
        fun hlt => (hrest i range howns.pos hrange).2 hlt l howns
      exact ⟨range, hrange, not_lt.mp hbelow, hl.trans hcovers.2⟩
  · intro h
    obtain ⟨range, hrange, hc⟩ := h
    have hi := pos_of_covers hzero hrange hc
    rcases hrest with hnone | hrest
    · exact absurd hc (hnone range (List.mem_of_getElem? hrange))
    · exact ⟨exists_owner hi hrange hc, (hrest i range hi hrange).1 hc⟩

theorem Owns.lt_length {rules : List (RangeKeyType M)} {i k : Nat} (h : Owns rules i k) :
    i < rules.length := by
  obtain ⟨_, hrange, _⟩ := h.covers
  exact (List.getElem?_eq_some_iff.mp hrange).1

/-- A lookup finds a segment when some rule owns the field, and then selects every rule that owns
the field or a number above it. -/
theorem find_owners (hlib : lib.Documented) (hs : M.Integral) {rules : List (RangeKeyType M)}
    (hlen : rules.length ≤ maxTableSize) (packet : Packet) :
    ∃ found selected, (∀ field my bits,
        ((empty : MatchRange lib M).addRules rules).find field my bits packet =
          .ok (found, selected, bits &&& selected)) ∧
      (found = true ↔ ∃ i, Owns rules i (M.number packet)) ∧
      ∀ i, selected.getLsbD i = true ↔
        (∃ j, Owns rules j (M.number packet)) ∧ ∃ k, M.number packet ≤ k ∧ Owns rules i k := by
  have hnil : lib.find ((empty : MatchRange lib M).addRules rules).interval (M.number packet) ≠ [] ↔
      ∃ i, Owns rules i (M.number packet) := by
    rw [interval_addRules, Ne, hlib.find_eq_nil_iff, ← Ne, Option.ne_none_iff_exists']
    simp only [owner_iff]
  have hmem : ∀ i, (∃ it ∈ lib.find ((empty : MatchRange lib M).addRules rules).interval
        (M.number packet), it.value = i) ↔
      (∃ j, Owns rules j (M.number packet)) ∧ ∃ k, M.number packet ≤ k ∧ Owns rules i k := by
    intro i
    by_cases howned : ∃ j, Owns rules j (M.number packet)
    · have hfound := hnil.mpr howned
      rw [interval_addRules, Ne, hlib.find_eq_nil_iff] at hfound
      rw [interval_addRules, hlib.mem_find hfound]
      simp only [owner_iff, howned, true_and]
    · have hmiss := not_not.mp (mt hnil.mp howned)
      simp [hmiss, howned]
  obtain ⟨found, selected, hrun, hfound, hbits⟩ := find_walk hs packet
    (s := (empty : MatchRange lib M).addRules rules) (by
      intro it hit
      obtain ⟨_, _, _, howns⟩ := (hmem it.value).mp ⟨it, hit, rfl⟩
      exact howns.lt_length.trans_le hlen)
  exact ⟨found, selected, hrun, hfound.trans hnil, fun i => (hbits i).trans (hmem i)⟩

/-- `find` selects exactly the rules whose range contains the field, and hits when there is one. -/
def SelectsRanges (s : MatchRange lib M) (rules : List (RangeKeyType M)) (packet : Packet) : Prop :=
  ∀ field my bits, ∃ found selected,
    s.find field my bits packet = .ok (found, selected, bits &&& selected) ∧
    (∀ i, selected.getLsbD i = true ↔
      ∃ range, rules[i]? = some range ∧ Covers range (M.number packet)) ∧
    (found = true ↔ ∃ range ∈ rules, Covers range (M.number packet))

section

variable {rules : List (RangeKeyType M)} {packet : Packet}

/-- The map ignores value 0, so the lookup never selects rule 0. -/
theorem SelectsRanges.rule_zero (hlib : lib.Documented) (hs : M.Integral)
    (hlen : rules.length ≤ maxTableSize)
    (h : ((empty : MatchRange lib M).addRules rules).SelectsRanges rules packet)
    {range : RangeKeyType M} (hrange : rules[0]? = some range) :
    ¬Covers range (M.number packet) := by
  intro hc
  obtain ⟨_, selected, hrun, _, hbits⟩ := find_owners hlib hs hlen packet
  obtain ⟨_, selected', hrun', hbits', _⟩ := h (fun _ => 0) 0 0
  rw [hrun] at hrun'
  cases hrun'
  obtain ⟨_, k, _, howns⟩ := (hbits 0).mp ((hbits' 0).mpr ⟨range, hrange, hc⟩)
  exact absurd howns.pos (lt_irrefl 0)

/-- The walk goes on to the end of the map, past the segment of the field. -/
theorem SelectsRanges.covers_iff_owns (hlib : lib.Documented) (hs : M.Integral)
    (hlen : rules.length ≤ maxTableSize)
    (h : ((empty : MatchRange lib M).addRules rules).SelectsRanges rules packet)
    {i j : Nat} {range other : RangeKeyType M} (hrange : rules[i]? = some range)
    (hother : rules[j]? = some other) (hc : Covers other (M.number packet)) :
    Covers range (M.number packet) ↔ ∃ k, M.number packet ≤ k ∧ Owns rules i k := by
  obtain ⟨_, selected, hrun, hfound, hbits⟩ := find_owners hlib hs hlen packet
  obtain ⟨_, selected', hrun', hbits', hfound'⟩ := h (fun _ => 0) 0 0
  rw [hrun] at hrun'
  cases hrun'
  have howned := hfound.mp (hfound'.mpr ⟨other, List.mem_of_getElem? hother, hc⟩)
  constructor
  · exact fun hcovers => ((hbits i).mp ((hbits' i).mpr ⟨range, hrange, hcovers⟩)).2
  · intro howns
    obtain ⟨again, hagain, hcovers⟩ := (hbits' i).mp ((hbits i).mpr ⟨howned, howns⟩)
    obtain rfl := Option.some.inj (hagain.symm.trans hrange)
    exact hcovers

end

/-- The lookup is right for a field outside the range of rule 0 that no range contains, or such
that each range that contains it still owns a number from it on and no range that begins above
it owns any number. -/
theorem selectsRanges_iff (hlib : lib.Documented) (hs : M.Integral) (rules : List (RangeKeyType M))
    (hlen : rules.length ≤ maxTableSize) (packet : Packet) :
    ((empty : MatchRange lib M).addRules rules).SelectsRanges rules packet ↔
      (∀ range, rules[0]? = some range → ¬Covers range (M.number packet)) ∧
      ((∀ range ∈ rules, ¬Covers range (M.number packet)) ∨
        ∀ i range, 0 < i → rules[i]? = some range →
          (Covers range (M.number packet) → ∃ k, M.number packet ≤ k ∧ Owns rules i k) ∧
          (M.number packet < range.1.val → ∀ k, ¬Owns rules i k)) := by
  constructor
  · intro h
    refine ⟨fun range hrange => h.rule_zero hlib hs hlen hrange, ?_⟩
    by_cases hnone : ∀ range ∈ rules, ¬Covers range (M.number packet)
    · exact Or.inl hnone
    · right
      push Not at hnone
      obtain ⟨other, hmem, hc⟩ := hnone
      obtain ⟨j, hother⟩ := List.mem_iff_getElem?.mp hmem
      intro i range hi hrange
      have hiff := h.covers_iff_owns hlib hs hlen hrange hother hc
      refine ⟨hiff.mp, fun hbelow k howns => ?_⟩
      obtain ⟨again, hagain, hk⟩ := howns.covers
      obtain rfl := Option.some.inj (hagain.symm.trans hrange)
      exact absurd (hiff.mpr ⟨k, hbelow.le.trans hk.1, howns⟩).1 (not_le.mpr hbelow)
  · intro h field my bits
    obtain ⟨hzero, hrest⟩ := h
    obtain ⟨found, selected, hrun, hfound, hbits⟩ := find_owners hlib hs hlen packet
    exact ⟨found, selected, hrun field my bits,
      fun i => (hbits i).trans (owned_iff_covers hzero hrest i),
      hfound.trans (exists_owner_iff hzero)⟩

/-- Three disjoint ranges of a one-byte field. -/
def byteRanges : List (RangeKeyType ⟨1, 0⟩) :=
  [(⟨0, by decide⟩, ⟨5, by decide⟩), (⟨30, by decide⟩, ⟨40, by decide⟩),
    (⟨10, by decide⟩, ⟨20, by decide⟩)]

theorem owns_byteRanges_one {k : Nat} (hlo : 30 ≤ k) (hhi : k ≤ 40) : Owns byteRanges 1 k where
  pos := Nat.one_pos
  covers := ⟨_, rfl, hlo, hhi⟩
  first := by
    intro j _ hpos hlt
    omega

theorem selectsRanges_byteRanges :
    ((empty : MatchRange IntervalMap.gapFilling ⟨1, 0⟩).addRules byteRanges).SelectsRanges byteRanges
      (fun _ => 35) := by
  refine (selectsRanges_iff IntervalMap.gapFilling_documented (Or.inl rfl) byteRanges (by decide)
    fun _ => 35).mpr ⟨fun range hrange => ?_, Or.inr fun i range hi hrange => ?_⟩
  · cases hrange
    decide
  · have howns := owns_byteRanges_one (k := 35) (by decide) (by decide)
    match i, hi with
    | 1, _ =>
      cases hrange
      exact ⟨fun _ => ⟨35, by decide, howns⟩, fun hlt => absurd hlt (by decide)⟩
    | 2, _ =>
      cases hrange
      exact ⟨fun hc => absurd hc (by decide), fun hlt => absurd hlt (by decide)⟩
    | i + 3, _ => cases hrange

theorem not_selectsRanges :
    ¬((empty : MatchRange IntervalMap.gapFilling ⟨1, 0⟩).addRules byteRanges).SelectsRanges byteRanges
        (fun _ => 3) ∧
      ¬((empty : MatchRange IntervalMap.gapFilling ⟨1, 0⟩).addRules byteRanges).SelectsRanges byteRanges
        (fun _ => 15) := by
  constructor
  · intro h
    exact h.rule_zero IntervalMap.gapFilling_documented (Or.inl rfl) (by decide) rfl (by decide)
  · intro h
    have hiff := h.covers_iff_owns (i := 1) (j := 2) IntervalMap.gapFilling_documented (Or.inl rfl)
      (by decide) rfl rfl (by decide)
    exact absurd (hiff.mpr ⟨30, by decide, owns_byteRanges_one (by decide) (by decide)⟩) (by decide)

end MatchRange

end LearningSwitch
