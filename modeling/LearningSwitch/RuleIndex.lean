import LearningSwitch.FirstMatch

namespace LearningSwitch

/-- The index sets split the numbers of the rules: each rule is in the set stored under its own
key and in no other. -/
structure MatchExact.Partitions {M : Match} (s : MatchExact M) (keys : List (KeyType M)) :
    Prop where
  disjoint : ∀ key key' rule rule', s.map key = some rule → s.map key' = some rule' → key ≠ key' →
    rule.indexSet.elems.Disjoint rule'.indexSet.elems
  union : ∀ i, (∃ key rule, s.map key = some rule ∧ i ∈ rule.indexSet.elems) ↔ i < keys.length
  nonempty : ∀ key rule, s.map key = some rule → rule.indexSet.elems ≠ []
  own : ∀ i key, keys[i]? = some key → ∃ rule, s.map key = some rule ∧ i ∈ rule.indexSet.elems

theorem MatchExact.Holds.own {M : Match} {s : MatchExact M} {keys : List (KeyType M)}
    (h : s.Holds keys) {i : Nat} {key : KeyType M} (hkey : keys[i]? = some key) :
    ∃ rule, s.map key = some rule ∧ i ∈ rule.indexSet.elems := by
  cases hmap : s.map key with
  | none => exact absurd (List.mem_of_getElem? hkey) (h.absent key hmap)
  | some rule => exact ⟨rule, rfl, (h.mem key rule hmap i).mpr hkey⟩

theorem MatchExact.Holds.partitions {M : Match} {s : MatchExact M} {keys : List (KeyType M)}
    (h : s.Holds keys) : s.Partitions keys where
  disjoint := by
    intro key key' rule rule' hmap hmap' hne i hi hi'
    have hkey := (h.mem key rule hmap i).mp hi
    have hkey' := (h.mem key' rule' hmap' i).mp hi'
    exact hne (Option.some.inj (hkey.symm.trans hkey'))
  union := by
    intro i
    constructor
    · intro hi
      obtain ⟨key, rule, hmap, hi⟩ := hi
      have hkey := (h.mem key rule hmap i).mp hi
      exact (List.getElem?_eq_some_iff.mp hkey).1
    · intro hi
      obtain ⟨rule, hmap, hi⟩ := h.own (List.getElem?_eq_getElem hi)
      exact ⟨keys[i], rule, hmap, hi⟩
  nonempty := h.nonempty
  own := fun _ _ hkey => h.own hkey

namespace Classifier

/-- Every stage splits the numbers of the rules by its own field, and reads the same counter. -/
def IndexesOnce : {M : Match} → {Ms : List Match} → ExactClassifier M Ms →
    List (ExactFields M Ms) → Prop
  | _, [], c, rules => c.ruleCounter = rules.length ∧
      MatchExact.Partitions (LastLevel.impl c) (rules.map ExactFields.only)
  | _, _ :: _, c, rules => c.ruleCounter = rules.length ∧
      MatchExact.Partitions (Level.impl c) (rules.map ExactFields.first) ∧
      IndexesOnce (Level.next c) (rules.map ExactFields.others)

variable {M : Match} {Ms : List Match}

theorem Installed.indexesOnce {c : ExactClassifier M Ms} {rules : List (ExactFields M Ms)}
    (h : c.Installed rules) : c.IndexesOnce rules := by
  induction Ms generalizing M with
  | nil => exact ⟨h.counter, MatchExact.Holds.partitions h.holds⟩
  | cons N Ns ih =>
    have hnext : Installed (Level.next c) (rules.map ExactFields.others) := by
      refine ⟨?_, h.holds.2⟩
      rw [List.length_map]
      exact h.counter
    exact ⟨h.counter, MatchExact.Holds.partitions h.holds.1, ih hnext⟩

/-- After each of any sequence of `add_rule` calls, in every stage: the stored index sets are
disjoint, none is empty, together they hold the numbers of all the rules, and each rule is stored
under its own field. -/
theorem addRules_indexesOnce {N : Match} (calls : List (ExactFields M (N :: Ms))) (k : Nat) :
    ((empty : ExactClassifier M (N :: Ms)).addRules (calls.take k)).IndexesOnce (calls.take k) := by
  have hinst := installed_empty.addRules (calls.take k)
  rw [List.nil_append] at hinst
  exact hinst.indexesOnce

end Classifier

end LearningSwitch
