import LearningSwitch.MatchExact

namespace LearningSwitch

/-- The functions whose address is ever stored in `Action::callback_`. -/
inductive Callback
  | actionClassifyForbidden
deriving DecidableEq

/-- `struct Action`; `none` is the null pointer. -/
structure Action where
  type_ : Nat
  callback : Option Callback
deriving DecidableEq

/-- `Action()`, as `unordered_map::operator[]` creates it. -/
def Action.init : Action where
  type_ := 0
  callback := none

/-- What the `Classifier` template asks of a stage type. `Local` stands for the uninitialised
local variables of its `find`. -/
structure Stage where
  Impl : Type
  KeyType : Type
  Local : Type
  init : Impl
  addRule : Impl → Nat → KeyType → Impl
  find : Impl → Local → BitSetT → BitSetT → Packet → Except Fault (Bool × BitSetT × BitSetT)

abbrev exactStage (M : Match) : Stage where
  Impl := MatchExact M
  KeyType := KeyType M
  Local := KeyType M
  init := .empty
  addRule := .addRule
  find := MatchExact.find

/-- `Classifier<Type>`: the innermost level owns the rule counter and the action table. Every
access to the table goes through `operator[]`, so an absent key reads as `Action()`. -/
structure LastLevel (t : Stage) where
  impl : t.Impl
  ruleCounter : Nat
  actionTable : Nat → Action

/-- `Classifier<Type, Tail...>`: its `rule_counter_` and `action_table_` are references into
`next_`. -/
structure Level (t : Stage) (Next : Type) where
  impl : t.Impl
  next : Next

def Classifier : Stage → List Stage → Type
  | t, [] => LastLevel t
  | t, u :: ts => Level t (Classifier u ts)

/-- The arguments of `add_rule`, one field a stage. -/
def Fields : Stage → List Stage → Type
  | t, [] => t.KeyType
  | t, u :: ts => t.KeyType × Fields u ts

def Locals : Stage → List Stage → Type
  | t, [] => t.Local
  | t, u :: ts => t.Local × Locals u ts

namespace Classifier

def empty : {t : Stage} → {ts : List Stage} → Classifier t ts
  | t, [] => (⟨t.init, 0, fun _ => .init⟩ : LastLevel t)
  | t, u :: ts => (⟨t.init, empty⟩ : Level t (Classifier u ts))

def ruleCounter : {t : Stage} → {ts : List Stage} → Classifier t ts → Nat
  | _, [], c => LastLevel.ruleCounter c
  | _, _ :: _, c => ruleCounter (Level.next c)

def actionTable : {t : Stage} → {ts : List Stage} → Classifier t ts → Nat → Action
  | _, [], c => LastLevel.actionTable c
  | _, _ :: _, c => actionTable (Level.next c)

def countRule : {t : Stage} → {ts : List Stage} → Classifier t ts → Classifier t ts
  | t, [], c => { (c : LastLevel t) with ruleCounter := LastLevel.ruleCounter c + 1 }
  | t, u :: ts, c => { (c : Level t (Classifier u ts)) with next := countRule (Level.next c) }

/-- A write through the `Action *` that `add_rule` returned. -/
def setAction (slot : Nat) (f : Action → Action) :
    {t : Stage} → {ts : List Stage} → Classifier t ts → Classifier t ts
  | t, [], c =>
    { (c : LastLevel t) with
      actionTable := Function.update (LastLevel.actionTable c) slot (f (LastLevel.actionTable c slot)) }
  | t, u :: ts, c =>
    { (c : Level t (Classifier u ts)) with next := setAction slot f (Level.next c) }

def addRuleNb (ruleNb : Nat) :
    {t : Stage} → {ts : List Stage} → Classifier t ts → Fields t ts → Classifier t ts
  | t, [], c, field =>
    { (c : LastLevel t) with impl := t.addRule (LastLevel.impl c) ruleNb field }
  | t, u :: ts, c, fields =>
    let next : Classifier u ts := addRuleNb ruleNb (Level.next c) (Prod.snd fields)
    (⟨t.addRule (Level.impl c) ruleNb (Prod.fst fields), next⟩ : Level t (Classifier u ts))

/-- `add_rule`: the new classifier, and the key of the action slot whose address it returns. -/
def addRule {t : Stage} {ts : List Stage} (c : Classifier t ts) (fields : Fields t ts) :
    Nat × Classifier t ts :=
  let c := (c.addRuleNb c.ruleCounter fields).countRule
  (c.ruleCounter - 1, c)

/-- `_find`: narrows `bitset`, which the levels pass on by reference. -/
def findBits : {t : Stage} → {ts : List Stage} → Classifier t ts → Locals t ts → BitSetT →
    Packet → Except Fault BitSetT
  | t, [], c, l, bitset, packet => do
    let (found, myBitset, bitset) ←
      t.find (LastLevel.impl c) l (.ofNat maxTableSize (ruleCounter c)) bitset packet
    if found = false then .ok bitset else .ok (bitset &&& myBitset)
  | t, u :: ts, c, ls, bitset, packet => do
    let (found, myBitset, bitset) ←
      t.find (Level.impl c) (Prod.fst ls) (.ofNat maxTableSize (ruleCounter c)) bitset packet
    if found = false then .ok bitset
    else
      let bitset ← findBits (Level.next c : Classifier u ts) (Prod.snd ls) bitset packet
      .ok (bitset &&& myBitset)

def scan (bitset : BitSetT) : List Nat → Except Fault (Option Nat)
  | [] => .ok none
  | i :: is => do
    if ← bitset.test i then .ok (some i) else scan bitset is

/-- `find`: the key of the action slot whose address it returns, or NULL. -/
def find {t : Stage} {ts : List Stage} (c : Classifier t ts) (ls : Locals t ts)
    (packet : Packet) : Except Fault (Option Nat) := do
  let bitset ← c.findBits ls (~~~BitVec.ofNat maxTableSize 0) packet
  scan bitset (List.range c.ruleCounter)

def addRules {t : Stage} {ts : List Stage} (c : Classifier t ts) (rules : List (Fields t ts)) :
    Classifier t ts :=
  rules.foldl (fun c fields => (c.addRule fields).2) c

variable {t u : Stage} {ts : List Stage}

@[simp] theorem ruleCounter_countRule (c : Classifier t ts) :
    c.countRule.ruleCounter = c.ruleCounter + 1 := by
  induction ts generalizing t with
  | nil => rfl
  | cons u ts ih => exact ih (Level.next c)

@[simp] theorem actionTable_countRule (c : Classifier t ts) :
    c.countRule.actionTable = c.actionTable := by
  induction ts generalizing t with
  | nil => rfl
  | cons u ts ih => exact ih (Level.next c)

@[simp] theorem ruleCounter_addRuleNb (ruleNb : Nat) (c : Classifier t ts) (fields : Fields t ts) :
    (c.addRuleNb ruleNb fields).ruleCounter = c.ruleCounter := by
  induction ts generalizing t with
  | nil => rfl
  | cons u ts ih => exact ih (Level.next c) fields.2

@[simp] theorem actionTable_addRuleNb (ruleNb : Nat) (c : Classifier t ts) (fields : Fields t ts) :
    (c.addRuleNb ruleNb fields).actionTable = c.actionTable := by
  induction ts generalizing t with
  | nil => rfl
  | cons u ts ih => exact ih (Level.next c) fields.2

@[simp] theorem ruleCounter_setAction (slot : Nat) (f : Action → Action) (c : Classifier t ts) :
    (c.setAction slot f).ruleCounter = c.ruleCounter := by
  induction ts generalizing t with
  | nil => rfl
  | cons u ts ih => exact ih (Level.next c)

@[simp] theorem actionTable_setAction (slot : Nat) (f : Action → Action) (c : Classifier t ts) :
    (c.setAction slot f).actionTable =
      Function.update c.actionTable slot (f (c.actionTable slot)) := by
  induction ts generalizing t with
  | nil => rfl
  | cons u ts ih => exact ih (Level.next c)

@[simp] theorem ruleCounter_empty : (empty : Classifier t ts).ruleCounter = 0 := by
  induction ts generalizing t with
  | nil => rfl
  | cons u ts ih => exact ih

@[simp] theorem actionTable_empty (slot : Nat) :
    (empty : Classifier t ts).actionTable slot = .init := by
  induction ts generalizing t with
  | nil => rfl
  | cons u ts ih => exact ih

theorem addRule_slot (c : Classifier t ts) (fields : Fields t ts) :
    (c.addRule fields).1 = c.ruleCounter := by
  simp [addRule]

theorem ruleCounter_addRule (c : Classifier t ts) (fields : Fields t ts) :
    (c.addRule fields).2.ruleCounter = c.ruleCounter + 1 := by
  simp [addRule]

theorem actionTable_addRule (c : Classifier t ts) (fields : Fields t ts) :
    (c.addRule fields).2.actionTable = c.actionTable := by
  simp [addRule]

def outer : {t : Stage} → {ts : List Stage} → Classifier t ts → t.Impl
  | _, [], c => LastLevel.impl c
  | _, _ :: _, c => Level.impl c

def outerLocal : {t : Stage} → {ts : List Stage} → Locals t ts → t.Local
  | _, [], l => l
  | _, _ :: _, ls => Prod.fst ls

theorem findBits_outer_miss {c : Classifier t ts} {ls : Locals t ts} {packet : Packet}
    {bits my out : BitSetT}
    (h : t.find c.outer (outerLocal ls) (.ofNat maxTableSize c.ruleCounter) bits packet =
      .ok (false, my, out)) : c.findBits ls bits packet = .ok out := by
  cases ts with
  | nil => simp only [outer, outerLocal] at h; simp [findBits, h]
  | cons u ts => simp only [outer, outerLocal] at h; simp [findBits, h]

theorem findBits_outer_error {c : Classifier t ts} {ls : Locals t ts} {packet : Packet}
    {bits : BitSetT} {f : Fault}
    (h : t.find c.outer (outerLocal ls) (.ofNat maxTableSize c.ruleCounter) bits packet =
      .error f) : c.findBits ls bits packet = .error f := by
  cases ts with
  | nil => simp only [outer, outerLocal] at h; simp [findBits, h]
  | cons u ts => simp only [outer, outerLocal] at h; simp [findBits, h]

/-- What each stage's own `find` selects for the packet, whatever bit sets it is handed. -/
def Selects : {t : Stage} → {ts : List Stage} → Classifier t ts → Locals t ts → Packet →
    List BitSetT → Prop
  | t, [], c, l, packet, sels => ∃ found sel, sels = [sel] ∧
      (∀ my bits, t.find (LastLevel.impl c) l my bits packet = .ok (found, sel, bits &&& sel)) ∧
      (found = false → sel = .ofNat maxTableSize 0)
  | t, u :: ts, c, ls, packet, sels => ∃ found sel rest, sels = sel :: rest ∧
      (∀ my bits, t.find (Level.impl c) ls.1 my bits packet = .ok (found, sel, bits &&& sel)) ∧
      (found = false → sel = .ofNat maxTableSize 0) ∧
      Selects (Level.next c : Classifier u ts) ls.2 packet rest

/-- The early return and the second narrowing on the way back are unobservable: the bits left
are those that every stage selects. -/
theorem findBits_eq_inter {c : Classifier t ts} {ls : Locals t ts} {packet : Packet}
    {sels : List BitSetT} (h : c.Selects ls packet sels) (bits : BitSetT) :
    ∃ out, c.findBits ls bits packet = .ok out ∧
      ∀ i, out.getLsbD i = (bits.getLsbD i && sels.all (·.getLsbD i)) := by
  induction ts generalizing t sels bits with
  | nil =>
    obtain ⟨found, sel, rfl, hfind, hmiss⟩ := h
    refine ⟨bits &&& sel, ?_, fun i => by simp⟩
    cases found with
    | false => simp [findBits, hfind]
    | true => simp [findBits, hfind, BitVec.and_assoc]
  | cons u ts ih =>
    obtain ⟨found, sel, rest, rfl, hfind, hmiss, hrest⟩ := h
    cases found with
    | false =>
      refine ⟨bits &&& sel, by simp [findBits, hfind], fun i => ?_⟩
      simp [hmiss rfl]
    | true =>
      obtain ⟨out, hout, hbits⟩ := ih hrest (bits &&& sel)
      refine ⟨out &&& sel, by simp [findBits, hfind, hout], fun i => ?_⟩
      rw [BitVec.getLsbD_and, hbits i, BitVec.getLsbD_and, List.all_cons]
      generalize rest.all (·.getLsbD i) = r
      cases bits.getLsbD i <;> cases sel.getLsbD i <;> cases r <;> rfl

theorem scan_eq_find? {bitset : BitSetT} {l : List Nat} (hl : ∀ i ∈ l, i < maxTableSize) :
    scan bitset l = .ok (l.find? fun i => bitset.getLsbD i) := by
  induction l with
  | nil => rfl
  | cons i is ih =>
    have hi := hl i (by simp)
    rw [scan, BitSetT.test, if_pos hi, StepRun.ok_bind]
    cases hb : bitset.getLsbD i with
    | false => simpa [hb] using ih fun j hj => hl j (by simp [hj])
    | true => simp [hb]

theorem scan_some {bitset : BitSetT} {l : List Nat} {i : Nat} (h : scan bitset l = .ok (some i)) :
    bitset.getLsbD i = true := by
  induction l with
  | nil => cases h
  | cons j js ih =>
    obtain ⟨b, hb, h⟩ := StepRun.bind_eq_ok.mp h
    cases b with
    | false => exact ih h
    | true =>
      cases h
      unfold BitSetT.test at hb
      split at hb
      next => exact Except.ok.inj hb
      next => cases hb

theorem scan_none {bitset : BitSetT} {l : List Nat} (h : scan bitset l = .ok none) :
    ∀ i ∈ l, i < maxTableSize := by
  induction l with
  | nil => simp
  | cons j js ih =>
    obtain ⟨b, hb, h⟩ := StepRun.bind_eq_ok.mp h
    have hj : j < maxTableSize := by
      unfold BitSetT.test at hb
      split at hb
      next hj => exact hj
      next => cases hb
    cases b with
    | false => simpa [hj] using ih h
    | true => cases h

/-- Over an empty bit set the scan walks on until it reads past the end. -/
theorem scan_zero {l : List Nat} {i : Nat} (hi : i ∈ l) (hlen : maxTableSize ≤ i) :
    ∃ q, scan (.ofNat maxTableSize 0) l = .error (.bitsetRead q) := by
  induction l with
  | nil => simp at hi
  | cons j js ih =>
    by_cases hj : j < maxTableSize
    · have hjs : i ∈ js := by
        rcases List.mem_cons.mp hi with rfl | hi
        · omega
        · exact hi
      obtain ⟨q, hq⟩ := ih hjs
      refine ⟨q, ?_⟩
      rw [scan, BitSetT.test, if_pos hj, StepRun.ok_bind, BitVec.getLsbD_zero]
      exact hq
    · refine ⟨j, ?_⟩
      rw [scan, BitSetT.test, if_neg hj, StepRun.error_bind]

end Classifier

end LearningSwitch
