import LearningSwitch.Classifier

namespace LearningSwitch

abbrev ExactClassifier (M : Match) (Ms : List Match) :=
  Classifier (exactStage M) (Ms.map exactStage)

abbrev ExactFields (M : Match) (Ms : List Match) :=
  Fields (exactStage M) (Ms.map exactStage)

abbrev ExactLocals (M : Match) (Ms : List Match) :=
  Locals (exactStage M) (Ms.map exactStage)

section

variable {M N : Match} {Ms : List Match}

def ExactFields.only (fields : ExactFields M []) : KeyType M := fields

def ExactFields.first (fields : ExactFields M (N :: Ms)) : KeyType M := Prod.fst fields

def ExactFields.others (fields : ExactFields M (N :: Ms)) : ExactFields N Ms := Prod.snd fields

end

def ExactFields.outer : {M : Match} → {Ms : List Match} → ExactFields M Ms → KeyType M
  | _, [], fields => ExactFields.only fields
  | _, _ :: _, fields => ExactFields.first fields

/-- The key is byte-equal to the packet at the offset of the field. -/
def Match.Equals (M : Match) (packet : Packet) (key : KeyType M) : Prop :=
  ∀ i : Fin M.sizeT, key i = packet (M.offsetT + i)

/-- All fields of the rule are byte-equal to the packet. -/
def FieldsEqual (packet : Packet) : {M : Match} → {Ms : List Match} → ExactFields M Ms → Prop
  | M, [], fields => M.Equals packet (ExactFields.only fields)
  | M, _ :: _, fields => M.Equals packet (ExactFields.first fields) ∧
      FieldsEqual packet (ExactFields.others fields)

instance decEquals (M : Match) (packet : Packet) (key : KeyType M) :
    Decidable (M.Equals packet key) :=
  show Decidable (∀ i : Fin M.sizeT, key i = packet (M.offsetT + i)) from inferInstance

instance decFieldsEqual (packet : Packet) : {M : Match} → {Ms : List Match} →
    (fields : ExactFields M Ms) → Decidable (FieldsEqual packet fields)
  | M, [], fields => decEquals M packet (ExactFields.only fields)
  | M, _ :: _, fields =>
    @instDecidableAnd _ _ (decEquals M packet (ExactFields.first fields))
      (decFieldsEqual packet (ExactFields.others fields))

theorem Match.equals_iff (M : Match) (packet : Packet) (key : KeyType M) :
    M.Equals packet key ↔ key = M.field packet :=
  funext_iff.symm

namespace Classifier

variable {M : Match} {Ms : List Match}

/-- Every stage holds the matching field of every rule, under the number of the rule. -/
def Holds : {M : Match} → {Ms : List Match} → ExactClassifier M Ms → List (ExactFields M Ms) → Prop
  | _, [], c, rules => MatchExact.Holds (LastLevel.impl c) (rules.map ExactFields.only)
  | _, _ :: _, c, rules => MatchExact.Holds (Level.impl c) (rules.map ExactFields.first) ∧
      Holds (Level.next c) (rules.map ExactFields.others)

/-- The rules were added in this order, and no others. -/
structure Installed (c : ExactClassifier M Ms) (rules : List (ExactFields M Ms)) : Prop where
  counter : c.ruleCounter = rules.length
  holds : c.Holds rules

theorem holds_empty : (empty : ExactClassifier M Ms).Holds [] := by
  induction Ms generalizing M with
  | nil => exact MatchExact.holds_empty
  | cons N Ns ih => exact ⟨MatchExact.holds_empty, ih⟩

theorem installed_empty : (empty : ExactClassifier M Ms).Installed [] where
  counter := ruleCounter_empty
  holds := holds_empty

theorem holds_countRule {c : ExactClassifier M Ms} {rules : List (ExactFields M Ms)}
    (h : c.Holds rules) : c.countRule.Holds rules := by
  induction Ms generalizing M with
  | nil => exact h
  | cons N Ns ih => exact ⟨h.1, ih h.2⟩

theorem holds_setAction {c : ExactClassifier M Ms} {rules : List (ExactFields M Ms)}
    (slot : Nat) (f : Action → Action) (h : c.Holds rules) : (c.setAction slot f).Holds rules := by
  induction Ms generalizing M with
  | nil => exact h
  | cons N Ns ih => exact ⟨h.1, ih h.2⟩

theorem holds_addRuleNb {c : ExactClassifier M Ms} {rules : List (ExactFields M Ms)}
    (h : c.Holds rules) (fields : ExactFields M Ms) :
    (c.addRuleNb rules.length fields).Holds (rules ++ [fields]) := by
  induction Ms generalizing M with
  | nil =>
    have honly := MatchExact.Holds.addRule h (ExactFields.only fields)
    rw [List.length_map] at honly
    rw [Holds, List.map_append]
    exact honly
  | cons N Ns ih =>
    have hfirst := MatchExact.Holds.addRule h.1 (ExactFields.first fields)
    have hothers := ih h.2 (ExactFields.others fields)
    rw [List.length_map] at hfirst hothers
    rw [Holds, List.map_append, List.map_append]
    exact ⟨hfirst, hothers⟩

theorem Installed.addRule {c : ExactClassifier M Ms} {rules : List (ExactFields M Ms)}
    (h : c.Installed rules) (fields : ExactFields M Ms) :
    (c.addRule fields).2.Installed (rules ++ [fields]) where
  counter := by simp [ruleCounter_addRule, h.counter]
  holds := by
    rw [Classifier.addRule, h.counter]
    exact holds_countRule (holds_addRuleNb h.holds fields)

theorem Installed.setAction {c : ExactClassifier M Ms} {rules : List (ExactFields M Ms)}
    (h : c.Installed rules) (slot : Nat) (f : Action → Action) :
    (c.setAction slot f).Installed rules where
  counter := by simp [h.counter]
  holds := holds_setAction slot f h.holds

theorem Installed.addRules {c : ExactClassifier M Ms} {rules : List (ExactFields M Ms)}
    (h : c.Installed rules) (more : List (ExactFields M Ms)) :
    (c.addRules more).Installed (rules ++ more) := by
  induction more generalizing c rules with
  | nil => simpa [Classifier.addRules] using h
  | cons fields more ih => simpa [Classifier.addRules] using ih (h.addRule fields)

/-- Over four-byte fields, rule `i` survives every stage exactly when all its fields match. -/
theorem selects_four {c : ExactClassifier M Ms} {rules : List (ExactFields M Ms)}
    (hs : ∀ N ∈ M :: Ms, N.sizeT = 4) (h : c.Holds rules) (hlen : rules.length ≤ maxTableSize)
    (ls : ExactLocals M Ms) (packet : Packet) :
    ∃ sels, c.Selects ls packet sels ∧ ∀ i, sels.all (·.getLsbD i) = true ↔
      ∃ fields, rules[i]? = some fields ∧ FieldsEqual packet fields := by
  induction Ms generalizing M with
  | nil =>
    obtain ⟨found, sel, hfind, hmiss, hbits⟩ :=
      MatchExact.find_four (hs M (by simp)) h (by rwa [List.length_map]) packet
    refine ⟨[sel], ⟨found, sel, rfl, hfind ls, hmiss⟩, fun i => ?_⟩
    rw [List.all_cons, List.all_nil, Bool.and_true, hbits i, decide_eq_true_eq, List.getElem?_map]
    cases hr : rules[i]? with
    | none => simp
    | some fields => simp [FieldsEqual, Match.equals_iff]
  | cons N Ns ih =>
    obtain ⟨found, sel, hfind, hmiss, hbits⟩ :=
      MatchExact.find_four (hs M (by simp)) h.1 (by rwa [List.length_map]) packet
    obtain ⟨rest, hrest, hall⟩ :=
      ih (fun K hK => hs K (List.mem_cons_of_mem M hK)) h.2
        (by rwa [List.length_map]) ls.2
    refine ⟨sel :: rest, ⟨found, sel, rest, rfl, hfind ls.1, hmiss, hrest⟩, fun i => ?_⟩
    rw [List.all_cons, Bool.and_eq_true, hall i, hbits i, decide_eq_true_eq, List.getElem?_map,
      List.getElem?_map]
    cases hr : rules[i]? with
    | none => simp
    | some fields => simp [FieldsEqual, Match.equals_iff]

/-- Lookup by bit sets is a linear scan of the rules in the order they were added. -/
theorem Installed.find_eq_findIdx? {c : ExactClassifier M Ms} {rules : List (ExactFields M Ms)}
    (h : c.Installed rules) (hs : ∀ N ∈ M :: Ms, N.sizeT = 4)
    (hlen : rules.length ≤ maxTableSize) (ls : ExactLocals M Ms) (packet : Packet) :
    c.find ls packet = .ok (rules.findIdx? fun fields => decide (FieldsEqual packet fields)) := by
  obtain ⟨sels, hsel, hall⟩ := selects_four hs h.holds hlen ls packet
  obtain ⟨out, hout, hbits⟩ := findBits_eq_inter hsel (~~~BitVec.ofNat maxTableSize 0)
  have hbit : ∀ i < rules.length, out.getLsbD i = true ↔
      ∃ fields, rules[i]? = some fields ∧ FieldsEqual packet fields := by
    intro i hi
    have hfull : (~~~BitVec.ofNat maxTableSize 0).getLsbD i = true := by
      simp only [BitVec.getLsbD_not, BitVec.getLsbD_zero, Bool.not_false, Bool.and_true,
        decide_eq_true_eq]
      omega
    rw [hbits i, hfull, Bool.true_and, hall i]
  have hscan : ∀ i ∈ List.range rules.length, i < maxTableSize := by
    intro i hi
    have := List.mem_range.mp hi
    omega
  rw [Classifier.find, hout, StepRun.ok_bind, h.counter, scan_eq_find? hscan]
  congr 1
  apply Option.ext
  intro i
  rw [List.find?_range_eq_some, List.findIdx?_eq_some_iff_getElem]
  constructor
  · intro h
    obtain ⟨hi, hmem, hlow⟩ := h
    have hlt := List.mem_range.mp hmem
    obtain ⟨fields, hf, heq⟩ := (hbit i hlt).mp hi
    obtain ⟨_, rfl⟩ := List.getElem?_eq_some_iff.mp hf
    refine ⟨hlt, by simpa using heq, fun j hj hmatch => ?_⟩
    have hset := (hbit j (by omega)).mpr ⟨rules[j], by simp, by simpa using hmatch⟩
    simpa [hset] using hlow j hj
  · intro h
    obtain ⟨hlt, heq, hlow⟩ := h
    refine ⟨(hbit i hlt).mpr ⟨rules[i], by simp, by simpa using heq⟩, List.mem_range.mpr hlt, ?_⟩
    intro j hj
    rw [Bool.not_eq_true', Bool.eq_false_iff]
    intro hset
    obtain ⟨fields, hf, hmatch⟩ := (hbit j (by omega)).mp hset
    obtain ⟨_, rfl⟩ := List.getElem?_eq_some_iff.mp hf
    exact hlow j hj (by simpa using hmatch)

theorem findBits_congr (c : ExactClassifier M Ms) (hs : ∀ N ∈ M :: Ms, N.sizeT = 4) {p q : Packet}
    (hfields : ∀ N ∈ M :: Ms, N.field p = N.field q) (ls ls' : ExactLocals M Ms) (bits : BitSetT) :
    c.findBits ls bits p = c.findBits ls' bits q := by
  have hstage := fun (s : MatchExact M) (field field' : KeyType M) (my my' : BitSetT) =>
    s.find_congr (hs M List.mem_cons_self) (hfields M List.mem_cons_self) field field' my my'
  induction Ms generalizing M bits with
  | nil =>
    rw [findBits, findBits]
    simp only [hstage (LastLevel.impl c) ls ls' _ (.ofNat maxTableSize c.ruleCounter)]
  | cons N Ns ih =>
    have hnext := fun bits' => ih (Level.next c) (fun K hK => hs K (List.mem_cons_of_mem M hK))
      (fun K hK => hfields K (List.mem_cons_of_mem M hK)) ls.2 ls'.2 bits' fun s =>
        s.find_congr (hs N (by simp)) (hfields N (by simp))
    rw [findBits, findBits]
    simp only [hstage (Level.impl c) ls.1 ls'.1 _ (.ofNat maxTableSize c.ruleCounter), hnext]

theorem getElem?_equals {α : Type} {rules : List α} {key : α → KeyType M} {packet : Packet}
    {i : Nat} (h : (rules.map key)[i]? = some (M.field packet)) :
    ∃ fields, rules[i]? = some fields ∧ M.Equals packet (key fields) := by
  rw [List.getElem?_map, Option.map_eq_some_iff] at h
  obtain ⟨fields, hr, hfield⟩ := h
  exact ⟨fields, hr, (M.equals_iff packet (key fields)).mpr hfield⟩

/-- However many rules there are, a bit that a lookup leaves set is the number of a rule whose
fields all match. -/
theorem findBits_four {c : ExactClassifier M Ms} {rules : List (ExactFields M Ms)}
    (hs : ∀ N ∈ M :: Ms, N.sizeT = 4) (h : c.Holds rules) {ls : ExactLocals M Ms}
    {bits out : BitSetT} {packet : Packet} (hrun : c.findBits ls bits packet = .ok out) {i : Nat}
    (hi : out.getLsbD i = true) :
    ∃ fields, rules[i]? = some fields ∧ FieldsEqual packet fields := by
  have four := hs M List.mem_cons_self
  induction Ms generalizing M bits out with
  | nil =>
    obtain ⟨⟨found, my, bits'⟩, hstage, hrest⟩ := StepRun.bind_eq_ok.mp hrun
    obtain ⟨rfl, _, hbits⟩ :=
      MatchExact.Holds.find_ok h four (.ofNat maxTableSize c.ruleCounter) hstage
    have hmy : my.getLsbD i = true := by
      cases found <;> cases hrest <;> rw [BitVec.getLsbD_and, Bool.and_eq_true] at hi
      · exact hi.2
      · exact hi.2
    exact getElem?_equals ((hbits i).mp hmy)
  | cons N Ns ih =>
    obtain ⟨⟨found, my, bits'⟩, hstage, hrest⟩ := StepRun.bind_eq_ok.mp hrun
    obtain ⟨rfl, hmiss, hbits⟩ :=
      MatchExact.Holds.find_ok h.1 four (.ofNat maxTableSize c.ruleCounter) hstage
    cases found with
    | false =>
      cases hrest
      simp [hmiss rfl] at hi
    | true =>
      obtain ⟨inner, hinner, hrest⟩ := StepRun.bind_eq_ok.mp hrest
      cases hrest
      rw [BitVec.getLsbD_and, Bool.and_eq_true] at hi
      have hothers := ih (fun K hK => hs K (List.mem_cons_of_mem M hK)) h.2 hinner hi.1
        (hs N (by simp))
      obtain ⟨fields, hr, hequals⟩ := getElem?_equals ((hbits i).mp hi.2)
      obtain ⟨others, ho, hmatch⟩ := hothers
      rw [List.getElem?_map, hr] at ho
      cases ho
      exact ⟨fields, hr, hequals, hmatch⟩

theorem Installed.find_some {c : ExactClassifier M Ms} {rules : List (ExactFields M Ms)}
    (h : c.Installed rules) (hs : ∀ N ∈ M :: Ms, N.sizeT = 4) {ls : ExactLocals M Ms}
    {packet : Packet} {slot : Nat} (hrun : c.find ls packet = .ok (some slot)) :
    ∃ fields, rules[slot]? = some fields ∧ FieldsEqual packet fields := by
  obtain ⟨out, hbits, hscan⟩ := StepRun.bind_eq_ok.mp hrun
  exact findBits_four hs h.holds hbits (scan_some hscan)

/-- A lookup that reports no rule has read the bit of every rule. -/
theorem Installed.find_none {c : ExactClassifier M Ms} {rules : List (ExactFields M Ms)}
    (h : c.Installed rules) {ls : ExactLocals M Ms} {packet : Packet}
    (hrun : c.find ls packet = .ok none) : rules.length ≤ maxTableSize := by
  obtain ⟨out, _, hscan⟩ := StepRun.bind_eq_ok.mp hrun
  by_contra hlen
  have hlast := scan_none hscan maxTableSize (List.mem_range.mpr (by rw [h.counter]; omega))
  omega

/-- Over four-byte fields, lookups in packets with the same fields agree, whatever the locals. -/
theorem find_congr (c : ExactClassifier M Ms) (hs : ∀ N ∈ M :: Ms, N.sizeT = 4) {p q : Packet}
    (hfields : ∀ N ∈ M :: Ms, N.field p = N.field q) (ls ls' : ExactLocals M Ms) :
    c.find ls p = c.find ls' q := by
  rw [Classifier.find, Classifier.find, findBits_congr c hs hfields ls ls']

theorem Holds.outer {c : ExactClassifier M Ms} {rules : List (ExactFields M Ms)}
    (h : c.Holds rules) : MatchExact.Holds c.outer (rules.map ExactFields.outer) := by
  cases Ms with
  | nil => exact h
  | cons N Ns => exact h.1

/-- Copies of one rule that outnumber the bits make every lookup throw or read past the end. -/
theorem Installed.find_overflow {c : ExactClassifier M Ms} {fields : ExactFields M Ms} {k : Nat}
    (h : c.Installed (List.replicate k fields)) (hs : M.sizeT = 4) (hk : maxTableSize < k)
    (ls : ExactLocals M Ms) (packet : Packet) :
    ∃ f, c.find ls packet = .error f ∧ f ≠ .nullCall := by
  have hcount : c.ruleCounter = k := by rw [h.counter, List.length_replicate]
  obtain ⟨q, hq⟩ := scan_zero (l := List.range c.ruleCounter) (i := maxTableSize)
    (List.mem_range.mpr (by omega)) (Nat.le_refl _)
  have honly : ∀ key ∈ (List.replicate k fields).map ExactFields.outer, key = fields.outer := by
    intro key hkey
    obtain ⟨r, hr, rfl⟩ := List.mem_map.mp hkey
    rw [List.eq_of_mem_replicate hr]
  rcases MatchExact.find_overflow hs h.holds.outer honly (by simpa using hk) (outerLocal ls)
    (.ofNat maxTableSize c.ruleCounter) (~~~BitVec.ofNat maxTableSize 0) packet with hmiss | ⟨p, hp⟩
  · rw [BitVec.and_zero] at hmiss
    exact ⟨_, by rw [Classifier.find, findBits_outer_miss hmiss, StepRun.ok_bind, hq], by simp⟩
  · exact ⟨_, by rw [Classifier.find, findBits_outer_error hp, StepRun.error_bind], by simp⟩

/-- The classifier is the first-match scan: `find` returns the slot of the lowest-numbered rule
whose fields all equal the packet's bytes, and NULL when there is none. -/
theorem find_first_match (hs : ∀ N ∈ M :: Ms, N.sizeT = 4) (rules : List (ExactFields M Ms))
    (hlen : rules.length < maxTableSize) (ls : ExactLocals M Ms) (packet : Packet) :
    (∀ i fields, rules[i]? = some fields →
      (((empty : ExactClassifier M Ms).addRules (rules.take i)).addRule fields).1 = i) ∧
    ∃ result, ((empty : ExactClassifier M Ms).addRules rules).find ls packet = .ok result ∧
      (∀ i, result = some i ↔ ∃ fields, rules[i]? = some fields ∧ FieldsEqual packet fields ∧
        ∀ j < i, ∀ lower, rules[j]? = some lower → ¬FieldsEqual packet lower) ∧
      (result = none ↔ ∀ fields ∈ rules, ¬FieldsEqual packet fields) := by
  refine ⟨fun i fields hi => ?_, rules.findIdx? fun fields => decide (FieldsEqual packet fields),
    ?_, fun i => ?_, ?_⟩
  · have hbound := (List.getElem?_eq_some_iff.mp hi).1
    have hinst := installed_empty.addRules (rules.take i)
    rw [addRule_slot, hinst.counter]
    simp
    omega
  · have hinst := installed_empty.addRules rules
    rw [List.nil_append] at hinst
    exact hinst.find_eq_findIdx? hs (by omega) ls packet
  · rw [List.findIdx?_eq_some_iff_getElem]
    constructor
    · intro h
      obtain ⟨hi, hmatch, hlow⟩ := h
      refine ⟨rules[i], by simp, by simpa using hmatch, fun j hj lower hr => ?_⟩
      obtain ⟨_, rfl⟩ := List.getElem?_eq_some_iff.mp hr
      simpa using hlow j hj
    · intro h
      obtain ⟨fields, hr, hmatch, hlow⟩ := h
      obtain ⟨hi, rfl⟩ := List.getElem?_eq_some_iff.mp hr
      exact ⟨hi, by simpa using hmatch, fun j hj => by simpa using hlow j hj rules[j] (by simp)⟩
  · simp [List.findIdx?_eq_none_iff]

def sharedFirst : List (ExactFields ⟨4, 0⟩ [⟨4, 4⟩]) :=
  [(fun _ => 1, fun _ => 2), (fun _ => 1, fun _ => 3)]

theorem find_first_match_sharedFirst :
    (empty.addRules sharedFirst).find (fun _ => 0, fun _ => 0) (fun i => if i < 4 then 1 else 3) =
      .ok (some 1) := by
  obtain ⟨_, result, hfind, hsome, _⟩ := find_first_match (by simp) sharedFirst (by decide)
    (fun _ => 0, fun _ => 0) (fun i => if i < 4 then 1 else 3)
  have hsecond : result = some 1 := by
    refine (hsome 1).mpr ⟨sharedFirst[1], rfl, by decide, fun j hj lower hlower => ?_⟩
    obtain rfl : j = 0 := by omega
    obtain rfl : sharedFirst[0] = lower := Option.some.inj hlower
    decide
  rw [hfind, hsecond]

end Classifier

end LearningSwitch
