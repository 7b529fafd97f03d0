import LearningSwitch.Mbuf
import LearningSwitch.SortedSet
import LearningSwitch.StepRun

namespace LearningSwitch

def maxTableSize : Nat := 100000

abbrev BitSetT := BitVec maxTableSize

/-- `bitset::set(pos, true)` throws `std::out_of_range` past the end. -/
def BitSetT.set (b : BitSetT) (pos : Nat) : Except Fault BitSetT :=
  if pos < maxTableSize then .ok (b ||| BitVec.twoPow maxTableSize pos)
  else .error (.outOfRange pos)

/-- `bitset[pos]` is unchecked: past the end it reads outside the bitset. -/
def BitSetT.test (b : BitSetT) (pos : Nat) : Except Fault Bool :=
  if pos < maxTableSize then .ok (b.getLsbD pos) else .error (.bitsetRead pos)

/-- The bytes from the `void *packet` argument on. -/
abbrev Packet := Nat → UInt8

structure Match where
  sizeT : Nat
  offsetT : Nat
deriving DecidableEq

abbrev KeyType (M : Match) := Fin M.sizeT → UInt8

/-- The bytes of the packet that the declared field covers. -/
def Match.field (M : Match) (packet : Packet) : KeyType M :=
  fun i => packet (M.offsetT + i)

/-- `struct Rule`: the numbers of the rules that share one key. -/
structure Rule where
  indexSet : SortedSet Nat

def Rule.insert (r : Rule) (ruleNb : Nat) : Rule where
  indexSet := r.indexSet.insert ruleNb

/-- `struct MatchExact<Match>`: the `unordered_map` from keys to rules. -/
structure MatchExact (M : Match) where
  map : KeyType M → Option Rule

variable {M : Match}

def MatchExact.empty : MatchExact M where
  map := fun _ => none

def MatchExact.addRule (s : MatchExact M) (ruleNb : Nat) (field : KeyType M) : MatchExact M :=
  let rule := (s.map field).getD ⟨SortedSet.empty⟩
  { map := Function.update s.map field (some (rule.insert ruleNb)) }

/-- `memcpy(array_field, packet_field, 4)` into the local key array, whose width is `SizeT`. -/
def copyField (field : KeyType M) (packet : Packet) : Except Fault (KeyType M) :=
  if 4 ≤ M.sizeT then .ok fun i => if i.val < 4 then packet (M.offsetT + i) else field i
  else .error .stackOverrun

def setAll (b : BitSetT) (positions : List Nat) : Except Fault BitSetT :=
  StepRun.run BitSetT.set b positions

/-- `field` holds whatever the uninitialised local key array holds on entry. The result is
`found` with the new `my_bitset` and `bitset`. -/
def MatchExact.find (s : MatchExact M) (field : KeyType M) (_myBitset bitset : BitSetT)
    (packet : Packet) : Except Fault (Bool × BitSetT × BitSetT) := do
  let field ← copyField field packet
  let myBitset : BitSetT := .ofNat maxTableSize 0
  match s.map field with
  | none => .ok (false, myBitset, bitset &&& myBitset)
  | some rule =>
    let myBitset ← setAll myBitset rule.indexSet.elems
    .ok (true, myBitset, bitset &&& myBitset)

/-- The stage stores a number under a key exactly when `R` relates them. -/
structure MatchExact.Indexes (s : MatchExact M) (R : Nat → KeyType M → Prop) : Prop where
  mem : ∀ key rule, s.map key = some rule → ∀ i, i ∈ rule.indexSet.elems ↔ R i key
  absent : ∀ key, s.map key = none → ∀ i, ¬R i key
  nonempty : ∀ key rule, s.map key = some rule → rule.indexSet.elems ≠ []

theorem MatchExact.indexes_empty : (MatchExact.empty : MatchExact M).Indexes fun _ _ => False where
  mem := by intro key rule h; cases h
  absent := by simp
  nonempty := by intro key rule h; cases h

theorem MatchExact.Indexes.of_iff {s : MatchExact M} {R R' : Nat → KeyType M → Prop}
    (h : s.Indexes R) (heq : ∀ i key, R i key ↔ R' i key) : s.Indexes R' where
  mem := fun key rule hmap i => (h.mem key rule hmap i).trans (heq i key)
  absent := fun key hmap i => mt (heq i key).mpr (h.absent key hmap i)
  nonempty := h.nonempty

theorem MatchExact.Indexes.addRule {s : MatchExact M} {R : Nat → KeyType M → Prop}
    (h : s.Indexes R) (n : Nat) (field : KeyType M) :
    (s.addRule n field).Indexes fun i key => R i key ∨ (i = n ∧ key = field) := by
  refine ⟨fun key rule hmap i => ?_, fun key hmap i => ?_, fun key rule hmap => ?_⟩
  · by_cases hk : key = field
    · subst hk
      obtain rfl : ((s.map key).getD ⟨SortedSet.empty⟩).insert n = rule := by
        simpa [MatchExact.addRule] using hmap
      cases hold : s.map key with
      | none =>
        have hnot := h.absent key hold i
        simp [Rule.insert, hnot]
      | some old => simp [Rule.insert, h.mem key old hold i, or_comm]
    · have hold : s.map key = some rule := by simpa [MatchExact.addRule, hk] using hmap
      simp [h.mem key rule hold i, hk]
  · by_cases hk : key = field
    · subst hk
      simp [MatchExact.addRule] at hmap
    · have hold : s.map key = none := by simpa [MatchExact.addRule, hk] using hmap
      simp [h.absent key hold i, hk]
  · by_cases hk : key = field
    · subst hk
      obtain rfl : ((s.map key).getD ⟨SortedSet.empty⟩).insert n = rule := by
        simpa [MatchExact.addRule] using hmap
      exact List.ne_nil_of_mem (SortedSet.mem_insert.mpr (Or.inl rfl))
    · exact h.nonempty key rule (by simpa [MatchExact.addRule, hk] using hmap)

/-- The stage stores rule `i` under the `i`-th key given to it, and nothing else. -/
structure MatchExact.Holds (s : MatchExact M) (keys : List (KeyType M)) : Prop where
  mem : ∀ key rule, s.map key = some rule →
    ∀ i, i ∈ rule.indexSet.elems ↔ keys[i]? = some key
  absent : ∀ key, s.map key = none → key ∉ keys
  nonempty : ∀ key rule, s.map key = some rule → rule.indexSet.elems ≠ []

theorem MatchExact.holds_empty : (MatchExact.empty : MatchExact M).Holds [] where
  mem := by intro key rule h; cases h
  absent := by simp
  nonempty := by intro key rule h; cases h

theorem MatchExact.holds_iff_indexes {s : MatchExact M} {keys : List (KeyType M)} :
    s.Holds keys ↔ s.Indexes fun i key => keys[i]? = some key := by
  constructor
  · intro h
    exact ⟨h.mem, fun key hmap i hi => h.absent key hmap (List.mem_of_getElem? hi), h.nonempty⟩
  · intro h
    refine ⟨h.mem, fun key hmap hin => ?_, h.nonempty⟩
    obtain ⟨i, hi⟩ := List.mem_iff_getElem?.mp hin
    exact h.absent key hmap i hi

theorem getElem?_snoc_iff {α : Type} {l : List α} {a b : α} {i : Nat} :
    (l ++ [a])[i]? = some b ↔ l[i]? = some b ∨ (i = l.length ∧ a = b) := by
  rcases Nat.lt_trichotomy i l.length with hi | hi | hi
  · rw [List.getElem?_append_left hi]
    simp [Nat.ne_of_lt hi]
  · subst hi
    simp
  · rw [List.getElem?_eq_none (by simp; omega), List.getElem?_eq_none (by omega)]
    simp [Nat.ne_of_gt hi]

theorem MatchExact.Holds.addRule {s : MatchExact M} {keys : List (KeyType M)} (h : s.Holds keys)
    (field : KeyType M) : (s.addRule keys.length field).Holds (keys ++ [field]) := by
  have hadd := (holds_iff_indexes.mp h).addRule keys.length field
  refine holds_iff_indexes.mpr (hadd.of_iff fun i key => ?_)
  rw [getElem?_snoc_iff, @eq_comm _ key]

theorem setAll_ok {positions : List Nat} (b : BitSetT)
    (hp : ∀ pos ∈ positions, pos < maxTableSize) :
    ∃ b', setAll b positions = .ok b' ∧
      ∀ i, b'.getLsbD i = (b.getLsbD i || decide (i ∈ positions)) := by
  induction positions generalizing b with
  | nil => exact ⟨b, rfl, by simp⟩
  | cons pos rest ih =>
    have hpos := hp pos (by simp)
    obtain ⟨b', hb, hbits⟩ := ih (b ||| BitVec.twoPow maxTableSize pos)
      fun q hq => hp q (by simp [hq])
    refine ⟨b', ?_, fun i => ?_⟩
    · rw [setAll, StepRun.run_cons, BitSetT.set, if_pos hpos]
      exact hb
    · rw [hbits i]
      by_cases he : i = pos
      · subst he; simp [hpos]
      · simp [BitVec.getLsbD_twoPow, he, Ne.symm he]

theorem setAll_error {positions : List Nat} {pos : Nat} (b : BitSetT) (hm : pos ∈ positions)
    (hp : maxTableSize ≤ pos) : ∃ q, setAll b positions = .error (.outOfRange q) := by
  induction positions generalizing b with
  | nil => simp at hm
  | cons q rest ih =>
    by_cases hq : q < maxTableSize
    · rcases List.mem_cons.mp hm with rfl | hm
      · omega
      · simp only [setAll, StepRun.run_cons, BitSetT.set, if_pos hq, StepRun.ok_bind]
        exact ih _ hm
    · exact ⟨q, by simp [setAll, StepRun.run_cons, BitSetT.set, hq]⟩

/-- The key array after the copy of four bytes: the bytes behind them keep what they held. -/
def Match.overlay (M : Match) (field : KeyType M) (packet : Packet) : KeyType M :=
  fun i => if i.val < 4 then packet (M.offsetT + i) else field i

/-- A four-byte key array is overwritten in full, whatever it held before. -/
theorem Match.overlay_four (hs : M.sizeT = 4) (field : KeyType M) (packet : Packet) :
    M.overlay field packet = M.field packet := by
  funext i
  have hi : i.val < 4 := by have := i.isLt; omega
  rw [Match.overlay, if_pos hi, Match.field]

theorem copyField_four (hs : M.sizeT = 4) (field : KeyType M) (packet : Packet) :
    copyField field packet = .ok (M.field packet) := by
  rw [copyField, if_pos (by omega)]
  exact congrArg Except.ok (M.overlay_four hs field packet)

namespace MatchExact

/-- A four-byte lookup sees nothing but the field of the packet. -/
theorem find_congr {s : MatchExact M} {p q : Packet} (hs : M.sizeT = 4)
    (h : M.field p = M.field q) (field field' : KeyType M) (my my' bits : BitSetT) :
    s.find field my bits p = s.find field' my' bits q := by
  rw [find, find, copyField_four hs, copyField_four hs, h]

/-- With the key array copied, `find` either sets the numbers stored under it or throws at one
of them. -/
theorem Indexes.find {s : MatchExact M} {R : Nat → KeyType M → Prop} (h : s.Indexes R)
    (hs : 4 ≤ M.sizeT) (field : KeyType M) (packet : Packet) :
    (∃ found selected, (∀ my bits,
        s.find field my bits packet = .ok (found, selected, bits &&& selected)) ∧
      (found = false → selected = .ofNat maxTableSize 0) ∧
      (found = true → ∃ i, R i (M.overlay field packet)) ∧
      ∀ i, selected.getLsbD i = true ↔ R i (M.overlay field packet)) ∨
    ∃ i, R i (M.overlay field packet) ∧ maxTableSize ≤ i ∧
      ∀ my bits, ∃ q, s.find field my bits packet = .error (.outOfRange q) := by
  have hcopy : copyField field packet = .ok (M.overlay field packet) := by
    rw [copyField, if_pos hs]
    rfl
  cases hmap : s.map (M.overlay field packet) with
  | none =>
    left
    refine ⟨false, .ofNat maxTableSize 0, fun my bits => ?_, fun _ => rfl, by simp, fun i => ?_⟩
    · simp [MatchExact.find, hcopy, hmap]
    · simp [h.absent _ hmap i]
  | some rule =>
    by_cases hall : ∀ i ∈ rule.indexSet.elems, i < maxTableSize
    · left
      obtain ⟨selected, hset, hbits⟩ := setAll_ok (.ofNat maxTableSize 0) hall
      obtain ⟨j, hj⟩ := List.exists_mem_of_ne_nil _ (h.nonempty _ rule hmap)
      refine ⟨true, selected, fun my bits => ?_, by simp, fun _ => ?_, fun i => ?_⟩
      · simp [MatchExact.find, hcopy, hmap, hset]
      · exact ⟨j, (h.mem _ rule hmap j).mp hj⟩
      · simp [hbits i, h.mem _ rule hmap i]
    · right
      push Not at hall
      obtain ⟨i, hi, hbound⟩ := hall
      obtain ⟨q, hq⟩ := setAll_error (.ofNat maxTableSize 0) hi hbound
      exact ⟨i, (h.mem _ rule hmap i).mp hi, hbound, fun my bits =>
        ⟨q, by simp [MatchExact.find, hcopy, hmap, hq]⟩⟩

theorem Holds.find_ok {s : MatchExact M} {keys : List (KeyType M)} (h : s.Holds keys)
    (hs : M.sizeT = 4) {field : KeyType M} (my : BitSetT) {bits out selected : BitSetT}
    {packet : Packet} {found : Bool}
    (hrun : s.find field my bits packet = .ok (found, selected, out)) :
    out = bits &&& selected ∧ (found = false → selected = .ofNat maxTableSize 0) ∧
      ∀ i, selected.getLsbD i = true ↔ keys[i]? = some (M.field packet) := by
  have hfind := (holds_iff_indexes.mp h).find (by omega : 4 ≤ M.sizeT) field packet
  rw [M.overlay_four hs] at hfind
  rcases hfind with ⟨_, _, hok, hmiss, _, hbits⟩ | ⟨_, _, _, hthrow⟩
  · rw [hok my bits] at hrun
    cases hrun
    exact ⟨rfl, hmiss, hbits⟩
  · obtain ⟨_, hq⟩ := hthrow my bits
    rw [hq] at hrun
    cases hrun

theorem find_four {s : MatchExact M} {keys : List (KeyType M)} (hs : M.sizeT = 4)
    (h : s.Holds keys) (hk : keys.length ≤ maxTableSize) (packet : Packet) :
    ∃ found selected, (∀ field my bits,
        s.find field my bits packet = .ok (found, selected, bits &&& selected)) ∧
      (found = false → selected = .ofNat maxTableSize 0) ∧
      ∀ i, selected.getLsbD i = decide (keys[i]? = some (M.field packet)) := by
  have hfind := (holds_iff_indexes.mp h).find (by omega : 4 ≤ M.sizeT) (M.field packet) packet
  rw [M.overlay_four hs] at hfind
  rcases hfind with ⟨found, selected, hrun, hmiss, _, hbits⟩ | ⟨i, hi, hlarge, _⟩
  · refine ⟨found, selected, fun field my bits => ?_, hmiss, fun i => ?_⟩
    · rw [find_congr hs rfl field (M.field packet) my 0, hrun]
    · rw [Bool.eq_iff_iff, hbits i, decide_eq_true_eq]
  · have hbound := (List.getElem?_eq_some_iff.mp hi).1
    omega

/-- A stage that holds one key for more rules than the bit set has bits throws when it is hit. -/
theorem find_overflow {s : MatchExact M} {keys : List (KeyType M)} {only : KeyType M}
    (hs : M.sizeT = 4) (h : s.Holds keys) (honly : ∀ key ∈ keys, key = only)
    (hk : maxTableSize < keys.length) (field : KeyType M) (my bits : BitSetT) (packet : Packet) :
    s.find field my bits packet =
        .ok (false, .ofNat maxTableSize 0, bits &&& BitVec.ofNat maxTableSize 0) ∨
      ∃ q, s.find field my bits packet = .error (.outOfRange q) := by
  rcases (holds_iff_indexes.mp h).find (by omega : 4 ≤ M.sizeT) field packet with
    ⟨found, selected, hrun, hmiss, hhit, hbits⟩ | ⟨_, _, _, hthrow⟩
  · left
    cases found with
    | false => rw [hrun, hmiss rfl]
    | true =>
      obtain ⟨i, hi⟩ := hhit rfl
      have hlast : keys[maxTableSize]? = some (M.overlay field packet) := by
        rw [List.getElem?_eq_getElem hk, honly _ (List.getElem_mem hk),
          honly _ (List.mem_of_getElem? hi)]
      have hbound := BitVec.lt_of_getLsbD ((hbits maxTableSize).mpr hlast)
      omega
  · exact Or.inr (hthrow my bits)

end MatchExact

end LearningSwitch
