import LearningSwitch.StationTable

namespace LearningSwitch

variable {n : Nat}

inductive L2Use (n : Nat)
  | learn (a : Arrival n)
  | find (a : Arrival n)

def L2Use.addr : L2Use n → EtherAddr
  | .learn a => a.src
  | .find a => a.dst

/-- What a use decides: whether the table knew the key before and after `component_learn`, or
the answer of `find`. -/
inductive Decision
  | learned (before after : Option UInt64)
  | found (outputPort : Except Fault UInt32)
deriving DecidableEq

/-- The key of a use under the padding it meets. -/
def L2Use.key (u : L2Use n × UInt16) : UInt64 := asInt u.1.addr u.2

def l2Step (l2 : L2Switch) : L2Use n × UInt16 → Decision × L2Switch
  | (.learn a, pad) =>
    let l2' := componentLearn l2 a.world a.m pad
    (.learned (l2.l2AddrMap (asInt a.src pad)) (l2'.l2AddrMap (asInt a.src pad)), l2')
  | (.find a, pad) => (.found (l2.find a.world a.m pad), l2)

def decisions (l2 : L2Switch) : List (L2Use n × UInt16) → List Decision
  | [] => []
  | u :: us => (l2Step l2 u).1 :: decisions (l2Step l2 u).2 us

/-- Within a run keys stand for addresses, and the broadcast address is recognised. -/
def KeysFaithful (us : List (L2Use n × UInt16)) : Prop :=
  (∀ u ∈ us, ∀ v ∈ us, L2Use.key u = L2Use.key v ↔ u.1.addr = v.1.addr) ∧
    ∀ u ∈ us, u.1.addr = broadcastAddr → L2Use.key u = l2Broadcast

/-- Within a run each address meets one padding, and the broadcast address zero. -/
def PadsSettled (us : List (L2Use n × UInt16)) : Prop :=
  (∀ u ∈ us, ∀ v ∈ us, u.1.addr = v.1.addr → u.2 = v.2) ∧
    ∀ u ∈ us, u.1.addr = broadcastAddr → u.2 = 0

theorem keysFaithful_iff {us : List (L2Use n × UInt16)} : KeysFaithful us ↔ PadsSettled us := by
  constructor
  · intro hfaithful
    obtain ⟨hkeys, hbroad⟩ := hfaithful
    refine ⟨fun u hu v hv h => ?_, fun u hu h => ?_⟩
    · exact (asInt_inj.mp ((hkeys u hu v hv).mpr h)).2
    · exact (asInt_eq_l2Broadcast.mp (hbroad u hu h)).2
  · intro hsettled
    obtain ⟨hpads, hbroad⟩ := hsettled
    refine ⟨fun u hu v hv => ⟨fun h => (asInt_inj.mp h).1, fun h => ?_⟩, fun u hu h => ?_⟩
    · exact asInt_inj.mpr ⟨h, hpads u hu v hv h⟩
    · exact asInt_eq_l2Broadcast.mpr ⟨h, hbroad u hu h⟩

/-- A settled run has one padding for each address, zero for broadcast. -/
theorem PadsSettled.exists_pad {us : List (L2Use n × UInt16)} (h : PadsSettled us) :
    ∃ pad : EtherAddr → UInt16, pad broadcastAddr = 0 ∧ ∀ u ∈ us, u.2 = pad u.1.addr := by
  classical
  refine ⟨fun a => if h : ∃ u ∈ us, u.1.addr = a then h.choose.2 else 0, ?_, fun u hu => ?_⟩
  · dsimp only
    split
    next hu => exact h.2 _ hu.choose_spec.1 hu.choose_spec.2
    next => rfl
  · have hu' : ∃ v ∈ us, v.1.addr = u.1.addr := ⟨u, hu, rfl⟩
    simp only [dif_pos hu']
    exact h.1 u hu _ hu'.choose_spec.1 hu'.choose_spec.2.symm

def stationStep (t : StationTable) : L2Use n → Decision × StationTable
  | .learn a =>
    let t' := t.learn a.src a.inPort
    (.learned ((t a.src).map fun port => port.toUInt32.toUInt64)
      ((t' a.src).map fun port => port.toUInt32.toUInt64), t')
  | .find a => (.found (t.route a.dst), t)

def stationDecisions (t : StationTable) : List (L2Use n) → List Decision
  | [] => []
  | u :: us => (stationStep t u).1 :: stationDecisions (stationStep t u).2 us

theorem L2Switch.Implements.step {pad : EtherAddr → UInt16} {l2 : L2Switch} {t : StationTable}
    (h : l2.Implements pad t) (hpad : pad broadcastAddr = 0) (u : L2Use n) :
    (l2Step l2 (u, pad u.addr)).1 = (stationStep t u).1 ∧
      (l2Step l2 (u, pad u.addr)).2.Implements pad (stationStep t u).2 := by
  cases u with
  | learn a =>
    have hlearn := h.learn hpad a
    refine ⟨?_, hlearn⟩
    show Decision.learned _ _ = Decision.learned _ _
    rw [Decision.learned.injEq]
    exact ⟨h a.src, hlearn a.src⟩
  | find a =>
    refine ⟨?_, h⟩
    show Decision.found _ = Decision.found _
    exact congrArg Decision.found (h.find hpad a)

theorem L2Switch.Implements.decisions {pad : EtherAddr → UInt16} {l2 : L2Switch}
    {t : StationTable} (h : l2.Implements pad t) (hpad : pad broadcastAddr = 0)
    {us : List (L2Use n × UInt16)} (hus : ∀ u ∈ us, u.2 = pad u.1.addr) :
    LearningSwitch.decisions l2 us = stationDecisions t (us.map Prod.fst) := by
  induction us generalizing l2 t with
  | nil => rfl
  | cons u us ih =>
    obtain ⟨hd, himpl⟩ := h.step hpad u.1
    have hu : u = (u.1, pad u.1.addr) := Prod.ext rfl (hus u List.mem_cons_self)
    rw [LearningSwitch.decisions, List.map_cons, stationDecisions, hu]
    rw [hd, ih himpl fun v hv => hus v (List.mem_cons_of_mem _ hv)]

abbrev TwoRuns (n : Nat) := List (L2Use n × UInt16 × UInt16)

def TwoRuns.left (us : TwoRuns n) : List (L2Use n × UInt16) := us.map fun u => (u.1, u.2.1)

def TwoRuns.right (us : TwoRuns n) : List (L2Use n × UInt16) := us.map fun u => (u.1, u.2.2)

/-- Two runs over the same frames decide alike on keys that stand for addresses exactly when, in
each of them, the stray bytes are a function of the address, zero for broadcast. -/
theorem l2Padding_iff (us : TwoRuns n) :
    (decisions L2Switch.empty us.left = decisions L2Switch.empty us.right ∧
      KeysFaithful us.left ∧ KeysFaithful us.right) ↔
    PadsSettled us.left ∧ PadsSettled us.right := by
  rw [keysFaithful_iff, keysFaithful_iff]
  refine ⟨fun h => h.2, fun h => ⟨?_, h⟩⟩
  obtain ⟨pad, hpad, hleft⟩ := h.1.exists_pad
  obtain ⟨pad', hpad', hright⟩ := h.2.exists_pad
  rw [(L2Switch.implements_empty pad).decisions hpad hleft,
    (L2Switch.implements_empty pad').decisions hpad' hright]
  congr 1
  simp [TwoRuns.left, TwoRuns.right]

/-- A station is learned on port 3 and looked up, the second run meeting other stray bytes at the
lookup: it reads through `end()`. -/
theorem l2Padding_strayBytes :
    ¬ ∀ us : TwoRuns 1,
      decisions L2Switch.empty us.left = decisions L2Switch.empty us.right ∧
        KeysFaithful us.left ∧ KeysFaithful us.right := by
  intro h
  obtain ⟨hdec, _⟩ := h [(.learn (frameFrom (station 1) (station 2) 3), 0, 0),
    (.find (frameFrom (station 2) (station 1) 4), 0, 1)]
  exact absurd hdec (by decide)

end LearningSwitch
