import LearningSwitch.FirstMatch
import LearningSwitch.MatchRange
import Mathlib.Data.List.Find

namespace LearningSwitch

/-- A stage of either kind with the field that each rule gives to it. -/
inductive Column (lib : IntervalLib)
  | exact (M : Match) (four : M.sizeT = 4) (keys : Nat → KeyType M)
  | range (M : Match) (integral : M.Integral) (keys : Nat → RangeKeyType M)

namespace Column

variable {lib : IntervalLib}

def stage : Column lib → Stage
  | exact M _ _ => exactStage M
  | range M _ _ => rangeStage lib M

def key : (col : Column lib) → Nat → col.stage.KeyType
  | exact _ _ keys => keys
  | range _ _ keys => keys

/-- The state of the stage on its own after the first `n` rules. -/
def impl (col : Column lib) : Nat → col.stage.Impl
  | 0 => col.stage.init
  | n + 1 => col.stage.addRule (impl col n) n (col.key n)

/-- The fields of rule `i`, one for each stage. -/
def row : (col : Column lib) → (cols : List (Column lib)) → Nat →
    Fields col.stage (cols.map stage)
  | col, [], i => col.key i
  | col, next :: cols, i => (col.key i, row next cols i)

/-- The classifier with these stages after the first `n` rules: every sequence of `add_rule` calls
is one, with the field that rule `i` gives to a stage as key `i` of its column. -/
def table (col : Column lib) (cols : List (Column lib)) (n : Nat) :
    Classifier col.stage (cols.map stage) :=
  Classifier.empty.addRules ((List.range n).map (row col cols))

theorem table_succ (col : Column lib) (cols : List (Column lib)) (n : Nat) :
    table col cols (n + 1) = ((table col cols n).addRule (row col cols n)).2 := by
  rw [table, List.range_succ, List.map_append, Classifier.addRules, List.foldl_append]
  rfl

theorem ruleCounter_table (col : Column lib) (cols : List (Column lib)) (n : Nat) :
    (table col cols n).ruleCounter = n := by
  induction n with
  | zero => exact Classifier.ruleCounter_empty
  | succ n ih => rw [table_succ, Classifier.ruleCounter_addRule, ih]

theorem impl_table (col : Column lib) (n : Nat) : LastLevel.impl (table col [] n) = col.impl n := by
  induction n with
  | zero => rfl
  | succ n ih =>
    have hcount := ruleCounter_table col [] n
    rw [table_succ]
    show col.stage.addRule (LastLevel.impl (table col [] n)) (table col [] n).ruleCounter
      (col.key n) = _
    rw [ih, hcount]
    rfl

theorem table_cons (col next : Column lib) (cols : List (Column lib)) (n : Nat) :
    Level.impl (table col (next :: cols) n) = col.impl n ∧
      Level.next (table col (next :: cols) n) = table next cols n := by
  induction n with
  | zero => exact ⟨rfl, rfl⟩
  | succ n ih =>
    have hcount := ruleCounter_table col (next :: cols) n
    have hinner : Classifier.ruleCounter (Level.next (table col (next :: cols) n)) = n := hcount
    rw [table_succ, table_succ]
    constructor
    · show col.stage.addRule (Level.impl (table col (next :: cols) n))
        (table col (next :: cols) n).ruleCounter (col.key n) = _
      rw [ih.1, hcount]
      rfl
    · show (Classifier.addRuleNb (table col (next :: cols) n).ruleCounter
        (Level.next (table col (next :: cols) n)) (row next cols n)).countRule = _
      rw [hcount, ih.2, Classifier.addRule, ruleCounter_table]

theorem holds_exact (lib : IntervalLib) (M : Match) (four : M.sizeT = 4) (keys : Nat → KeyType M)
    (n : Nat) :
    MatchExact.Holds ((exact M four keys : Column lib).impl n) ((List.range n).map keys) := by
  induction n with
  | zero => exact MatchExact.holds_empty
  | succ n ih =>
    have hadd := ih.addRule (keys n)
    rw [List.length_map, List.length_range] at hadd
    rw [List.range_succ, List.map_append]
    exact hadd

theorem interval_range (M : Match) (integral : M.Integral) (keys : Nat → RangeKeyType M) (n : Nat) :
    MatchRange.interval ((range M integral keys : Column lib).impl n) =
      lib.insertAll ((List.range n).map fun i => ⟨(keys i).1, (keys i).2, i⟩) := by
  induction n with
  | zero => rfl
  | succ n ih =>
    rw [List.range_succ, List.map_append, IntervalMap.Lib.insertAll, List.foldl_append]
    exact congrArg (fun m => lib.insert m ⟨(keys n).1, (keys n).2, n⟩) ih

/-- What a stage selects on its own depends neither on its uninitialised locals nor on the bit
sets it is handed, and a stage that misses selects nothing. -/
theorem find_impl (hlib : lib.Stores) (col : Column lib) {n : Nat} (hn : n ≤ maxTableSize)
    (packet : Packet) : ∃ found sel, (∀ l my bits,
        col.stage.find (col.impl n) l my bits packet = .ok (found, sel, bits &&& sel)) ∧
      (found = false → sel = .ofNat maxTableSize 0) := by
  cases col with
  | exact M four keys =>
    obtain ⟨found, sel, hfind, hmiss, _⟩ := MatchExact.find_four four
      (holds_exact lib M four keys n) (by simpa using hn) packet
    exact ⟨found, sel, hfind, hmiss⟩
  | range M integral keys =>
    have hv : ∀ it ∈ lib.find (MatchRange.interval ((range M integral keys : Column lib).impl n))
        (M.number packet), it.value < maxTableSize := by
      intro it hit
      rw [interval_range] at hit
      obtain ⟨piece, hpiece, hvalue⟩ := hlib _ _ it hit
      obtain ⟨i, hi, rfl⟩ := List.mem_map.mp hpiece
      have hlt : it.value < n := hvalue ▸ List.mem_range.mp hi
      exact hlt.trans_le hn
    obtain ⟨found, sel, hfind, hfound, hbits⟩ := MatchRange.find_walk integral packet hv
    refine ⟨found, sel, hfind, fun hmiss => BitVec.eq_of_getLsbD_eq fun i _ => ?_⟩
    have hnil := not_not.mp (mt hfound.mpr (by simp [hmiss]))
    rw [hnil] at hbits
    rw [BitVec.getLsbD_zero, Bool.eq_false_iff]
    simp [hbits i]

theorem selects_table {n : Nat} {packet : Packet} {S : Column lib → BitSetT}
    {hit : Column lib → Bool}
    (hS : ∀ (col : Column lib) l my bits,
      col.stage.find (col.impl n) l my bits packet = .ok (hit col, S col, bits &&& S col))
    (hmiss : ∀ col, hit col = false → S col = .ofNat maxTableSize 0)
    (col : Column lib) (cols : List (Column lib)) (ls : Locals col.stage (cols.map stage)) :
    (table col cols n).Selects ls packet ((col :: cols).map S) := by
  induction cols generalizing col with
  | nil =>
    refine ⟨hit col, S col, rfl, fun my bits => ?_, hmiss col⟩
    rw [impl_table]
    exact hS col ls my bits
  | cons next cols ih =>
    obtain ⟨himpl, hnext⟩ := table_cons col next cols n
    refine ⟨hit col, S col, (next :: cols).map S, rfl, fun my bits => ?_, hmiss col, ?_⟩
    · rw [himpl]
      exact hS col ls.1 my bits
    · rw [hnext]
      exact ih next ls.2

/-- The classifier leaves the bits that every stage selects on its own, in whatever order the
stages stand, and the rule it finds is the same. -/
theorem find_stage_order (hlib : lib.Stores) (col : Column lib) (cols : List (Column lib)) (n : Nat)
    (hn : n < maxTableSize) (packet : Packet) :
    ∃ S : Column lib → BitSetT,
      (∀ c ∈ col :: cols, ∀ l my bits, ∃ found,
        c.stage.find (c.impl n) l my bits packet = .ok (found, S c, bits &&& S c)) ∧
      (∀ ls bits, ∃ out, (table col cols n).findBits ls bits packet = .ok out ∧
        ∀ i, out.getLsbD i = true ↔
          bits.getLsbD i = true ∧ ∀ c ∈ col :: cols, (S c).getLsbD i = true) ∧
      ∃ result, ∀ first rest, (col :: cols).Perm (first :: rest) →
        ∀ ls, (table first rest n).find ls packet = .ok result := by
  have hcol := fun c : Column lib => c.find_impl hlib hn.le packet
  choose hit S hS hmiss using hcol
  have hbits : ∀ first rest, ∀ ls : Locals first.stage (rest.map stage), ∀ bits, ∃ out,
      (table first rest n).findBits ls bits packet = .ok out ∧
      ∀ i, out.getLsbD i = (bits.getLsbD i && (first :: rest).all fun c => (S c).getLsbD i) := by
    intro first rest ls bits
    obtain ⟨out, hout, hbits⟩ :=
      Classifier.findBits_eq_inter (selects_table hS hmiss first rest ls) bits
    refine ⟨out, hout, fun i => ?_⟩
    rw [hbits i, List.all_map]
    rfl
  refine ⟨S, fun c _ l my bits => ⟨hit c, hS c l my bits⟩, fun ls bits => ?_,
    (List.range n).find? fun i => (col :: cols).all fun c => (S c).getLsbD i,
    fun first rest hperm ls => ?_⟩
  · obtain ⟨out, hout, hbits⟩ := hbits col cols ls bits
    refine ⟨out, hout, fun i => ?_⟩
    rw [hbits i, Bool.and_eq_true, List.all_eq_true]
  · obtain ⟨out, hout, hbits⟩ := hbits first rest ls (~~~BitVec.ofNat maxTableSize 0)
    have hscan : ∀ i ∈ List.range n, i < maxTableSize := fun i hi =>
      (List.mem_range.mp hi).trans hn
    rw [Classifier.find, hout, StepRun.ok_bind, ruleCounter_table, Classifier.scan_eq_find? hscan]
    congr 1
    refine List.find?_congr fun i hi => ?_
    have hfull : (~~~BitVec.ofNat maxTableSize 0).getLsbD i = true := by simp [hscan i hi]
    rw [hbits i, hfull, Bool.true_and, hperm.all_eq]

def hops : Column IntervalMap.gapFilling :=
  range ⟨1, 0⟩ (Or.inl rfl) fun _ => (⟨3, by decide⟩, ⟨6, by decide⟩)

def address : Column IntervalMap.gapFilling := exact ⟨4, 1⟩ rfl fun _ _ => 7

def fourSevens : Packet := fun i => if i = 0 then 4 else 7

/-- The value 0 of the first rule is the identity of the map, so only the second is stored. -/
theorem find_hops (field : Fin 1 → UInt8) (my bits : BitSetT) :
    hops.stage.find (hops.impl 3) field my bits fourSevens = .ok (true, 2, bits &&& 2) := by
  have hwalk : IntervalMap.gapFilling.find (MatchRange.interval (M := ⟨1, 0⟩) (hops.impl 3)) 4 =
    [⟨3, 6, 1⟩] := rfl
  have hset : setAll (.ofNat maxTableSize 0) [1] = .ok 2 := by decide +kernel
  have hcopy := MatchRange.integer_copyInteger (M := ⟨1, 0⟩) (Or.inl rfl) field fourSevens
  have hnum : Match.number ⟨1, 0⟩ fourSevens = 4 := by decide +kernel
  change MatchRange.find (M := ⟨1, 0⟩) (hops.impl 3) field my bits fourSevens = _
  simp only [MatchRange.find, hcopy, hnum]
  rw [hwalk]
  change (setAll (.ofNat maxTableSize 0) [1]).bind _ = _
  rw [hset]
  rfl

theorem find_address (field : KeyType ⟨4, 1⟩) (my bits : BitSetT) :
    address.stage.find (address.impl 3) field my bits fourSevens = .ok (true, 7, bits &&& 7) := by
  have hfield : Match.field ⟨4, 1⟩ fourSevens = fun _ => 7 := by decide
  have hset : setAll (.ofNat maxTableSize 0) [0, 1, 2] = .ok 7 := by decide +kernel
  change MatchExact.find (((MatchExact.empty.addRule 0 fun _ => 7).addRule 1 fun _ => 7).addRule 2
    fun _ => 7 : MatchExact ⟨4, 1⟩) field my bits fourSevens = _
  simp only [MatchExact.find, copyField_four, hfield, StepRun.ok_bind]
  change (setAll (.ofNat maxTableSize 0) [0, 1, 2]).bind _ = _
  rw [hset]
  rfl

theorem find_hops_first :
    (table hops [address] 3).find (fun _ => 0, fun _ => 0) fourSevens = .ok (some 1) := by
  have hselects : (table hops [address] 3).Selects (fun _ => 0, fun _ => 0) fourSevens [2, 7] :=
    ⟨true, 2, [7], rfl, find_hops _, by simp, true, 7, rfl, find_address _, by simp⟩
  obtain ⟨out, hout, hbits⟩ :=
    Classifier.findBits_eq_inter hselects (~~~BitVec.ofNat maxTableSize 0)
  have hscan : Classifier.scan out (List.range 3) = .ok (some 1) := by
    rw [Classifier.scan_eq_find? (by decide)]
    simp only [hbits]
    decide +kernel
  exact StepRun.bind_eq_ok.mpr ⟨out, hout, hscan⟩

theorem find_hops_address :
    (table hops [address] 3).find (fun _ => 0, fun _ => 0) fourSevens = .ok (some 1) ∧
      (table address [hops] 3).find (fun _ => 0, fun _ => 0) fourSevens = .ok (some 1) := by
  obtain ⟨_, _, _, result, hresult⟩ := find_stage_order IntervalMap.gapFilling_documented.stores
    hops [address] 3 (by decide) fourSevens
  have hfirst := hresult hops [address] (List.Perm.refl _) (fun _ => 0, fun _ => 0)
  obtain rfl : result = some 1 := Except.ok.inj (hfirst.symm.trans find_hops_first)
  exact ⟨hfirst, hresult address [hops] (List.Perm.swap address hops []) _⟩

end Column

end LearningSwitch
