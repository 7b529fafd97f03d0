import LearningSwitch.PatriciaTable

namespace LearningSwitch

open BackTree

variable {α δ : Type}

/-- The calls of a user: `insert` hands in a new node at `x`, `remove` a node at `q` that is the
caller's own. -/
inductive PatOp (α δ : Type)
  | insert (x : α) (key : UInt64) (m : PtreeMask δ)
  | remove (q : α) (key mask : UInt64) (strayNull : Bool)

/-- What a call returns: of a node, its key. -/
inductive PatAnswer
  | inserted (key : Option UInt64)
  | removed (r : Int)
deriving DecidableEq

def patStep [DecidableEq α] (head : α) (s : PatHeap α δ × List PatAnswer) :
    PatOp α δ → Except PatFault (PatHeap α δ × List PatAnswer)
  | .insert x key m => do
    let (a, h) ← patInsert (s.1.store x (patNode key m.pmMask m.pmData)) (some x) (some head)
    .ok (h, s.2 ++ [.inserted (a.map h.key)])
  | .remove q key mask strayNull => do
    let (r, h) ← patRemove (s.1.store q (patNode key mask none)) strayNull (some q) (some head)
    .ok (h.free q, s.2 ++ [.removed r])

/-- The same calls on the table. -/
def tableStep (T : PatTable δ × List PatAnswer) :
    PatOp α δ → Except PatFault (PatTable δ × List PatAnswer)
  | .insert _ key m => do
    let T' ← T.1.insert key m
    .ok (T', T.2 ++ [.inserted (some (key &&& m.pmMask))])
  | .remove _ key mask strayNull =>
    if strayNull then .ok (T.1, T.2 ++ [.removed 0])
    else .ok ((T.1.remove key mask).2, T.2 ++ [.removed (T.1.remove key mask).1])

/-- The node that a call hands in is no node of the trie, its address and mask have 32 bits, and
`p_mlen` can count one more mask of the key. -/
def PatOp.Ready (s : PatHeap α δ × List PatAnswer) : PatOp α δ → Prop
  | .insert x key m => s.1.node x = none ∧ m.pmMask.toNat < 2 ^ 32 ∧
    ∀ a, ∀ c ∈ s.1.node a, c.pKey = key &&& m.pmMask → c.pMlen.toNat < 255
  | .remove q key _ _ => s.1.node q = none ∧ key.toNat < 2 ^ 32

instance {n : Nat} (s : PatHeap (Fin n) δ × List PatAnswer) (op : PatOp (Fin n) δ) :
    Decidable (op.Ready s) :=
  match op with
  | .insert x key m => inferInstanceAs (Decidable (s.1.node x = none ∧ m.pmMask.toNat < 2 ^ 32 ∧
      ∀ a, ∀ c ∈ s.1.node a, c.pKey = key &&& m.pmMask → c.pMlen.toNat < 255))
  | .remove q key _ _ => inferInstanceAs (Decidable (s.1.node q = none ∧ key.toNat < 2 ^ 32))

/-- The default entry alone. -/
def PatTable.start (data : Option δ) : PatTable δ where
  masks := Function.update (fun _ => []) 0 [{ pmMask := 0, pmData := data }]
  freed := []

variable [DecidableEq α] {head : α} {data : Option δ}

theorem patHead_holds (head : α) (data : Option δ) :
    (patHead head data).Holds head (.start data) := by
  have hnode : (patHead head data).node head = some {
      pKey := 0, pM := some [{ pmMask := 0, pmData := data }], pMlen := 1, pB := 0
      pLeft := some head, pRight := some head } := by
    simp [patHead]
  have honly : ∀ a c, (patHead head data).node a = some c → a = head := by
    intro a c hc
    by_contra hne
    rw [patHead] at hc
    simp only [Function.update_of_ne hne] at hc
    cases hc
  have hstart : ∀ k, k ≠ 0 → (PatTable.start data).masks k = [] := fun k hk => by
    simp [PatTable.start, hk]
  have hzero : (PatTable.start data).masks 0 = [{ pmMask := 0, pmData := data }] := by
    simp [PatTable.start]
  refine ⟨⟨fun _ => .back head, ⟨?_, ?_, ?_, ?_, ?_, ?_, ?_, ?_, ?_⟩, fun a => ?_⟩, fun a c hc => ?_,
    fun k hk => ?_, rfl, fun k => ?_, fun k m hm => ?_⟩
  · exact ⟨rfl, _, hnode, rfl, rfl⟩
  · simp [patTree, nodes]
  · exact ⟨List.mem_cons_self, List.mem_cons_self⟩
  · exact PatHeap.pos_eq hnode
  · exact PatHeap.key_eq hnode
  · exact fun _ => trivial
  · exact fun _ => List.Perm.refl _
  · simp [nodes]
  · simp [nodes]
  · have hmem : a ∈ (patTree head fun _ => .back head).nodes ↔ a = head := by simp [patTree, nodes]
    rw [hmem]
    constructor
    · rintro rfl
      simp [hnode]
    · intro hlive
      obtain ⟨c, hc⟩ := Option.ne_none_iff_exists'.mp hlive
      exact honly a c hc
  · obtain rfl := honly a c hc
    obtain rfl := Option.some.inj (hnode.symm.trans hc)
    rw [hzero]
    exact ⟨rfl, rfl, List.cons_ne_nil _ _⟩
  · by_cases hk0 : k = 0
    · exact ⟨head, _, hnode, hk0.symm⟩
    · exact absurd (hstart k hk0) hk
  · by_cases hk0 : k = 0
    · rw [hk0, hzero]
      exact List.pairwise_singleton _ _
    · rw [hstart k hk0]
      exact List.Pairwise.nil
  · by_cases hk0 : k = 0
    · rw [hk0, hzero] at hm
      rw [hk0, List.mem_singleton.mp hm]
      exact ⟨Nat.two_pow_pos 32, by simp⟩
    · rw [hstart k hk0] at hm
      cases hm

/-- One call. -/
theorem patStep_refines {s : PatHeap α δ} {T : PatTable δ} (h : s.Holds head T)
    {answers : List PatAnswer} {op : PatOp α δ} (hready : op.Ready (s, answers)) :
    match tableStep (T, answers) op with
    | .error e => patStep head (s, answers) op = .error e
    | .ok (T', answers') => ∃ s', patStep head (s, answers) op = .ok (s', answers') ∧
        s'.Holds head T' ∧ s.Lifts s' := by
  cases op with
  | insert x key m =>
    obtain ⟨hx, hm, hroom⟩ := hready
    have hlen : (T.masks (key &&& m.pmMask)).length < 255 := by
      by_cases hnone : T.masks (key &&& m.pmMask) = []
      · rw [hnone]
        exact Nat.succ_pos 254
      · obtain ⟨a, c, hc, hkey⟩ := h.complete _ hnone
        rw [← hkey, ← (h.entry a c hc).2.1]
        exact hroom a c hc hkey
    have hinsert := patInsert_ok h hx hm hlen
    rw [tableStep, patStep]
    cases hT : T.insert key m with
    | error e =>
      rw [hT] at hinsert
      show (patInsert _ _ _ >>= _) = _
      rw [hinsert]
      rfl
    | ok T' =>
      rw [hT] at hinsert
      obtain ⟨s', a, hs', hholds, _, hkey⟩ := hinsert
      refine ⟨s', ?_, hholds⟩
      rw [hs', ← hkey]
      rfl
  | remove q key mask strayNull =>
    obtain ⟨hq, hkey⟩ := hready
    rw [tableStep, patStep]
    cases strayNull with
    | true =>
      refine ⟨s, ?_, h, h.lifts_self⟩
      rw [patRemove, PatHeap.load_ok (PatHeap.node_store_self ..)]
      show Except.ok ((s.store q (patNode key mask none)).free q, _) = _
      rw [PatHeap.free_store hq]
    | false =>
      obtain ⟨s', hs', hholds⟩ := patRemove_ok h hq hkey mask
      refine ⟨s'.free q, ?_, hholds⟩
      rw [hs']
      rfl

/-- Many calls. -/
theorem patRun_refines {s : PatHeap α δ} {T : PatTable δ} (h : s.Holds head T)
    {answers : List PatAnswer} {ops : List (PatOp α δ)}
    (hready : StepRun.Along (patStep head) PatOp.Ready (s, answers) ops) :
    match StepRun.run tableStep (T, answers) ops with
    | .error e => StepRun.run (patStep head) (s, answers) ops = .error e
    | .ok (T', answers') => ∃ s', StepRun.run (patStep head) (s, answers) ops = .ok (s', answers') ∧
        s'.Holds head T' := by
  induction ops generalizing s T answers with
  | nil => exact ⟨s, rfl, h⟩
  | cons op ops ih =>
    have hstep := patStep_refines h hready.1
    rw [StepRun.run_cons, StepRun.run_cons]
    cases hT : tableStep (T, answers) op with
    | error e =>
      rw [hT] at hstep
      rw [hstep]
      rfl
    | ok T' =>
      rw [hT] at hstep
      obtain ⟨s', hs', hholds, _⟩ := hstep
      rw [hs']
      exact ih hholds (hready.2 _ hs')

/-- Any calls on a trie that was set up as the test program does it: they are the calls on the
table, with the same answers, and they run into a fault exactly where the table says so. -/
theorem pat_table {ops : List (PatOp α δ)}
    (hready : StepRun.Along (patStep head) PatOp.Ready (patHead head data, []) ops) :
    match StepRun.run tableStep (PatTable.start data, []) ops with
    | .error e => StepRun.run (patStep head) (patHead head data, []) ops = .error e
    | .ok (T, answers) => ∃ s,
      StepRun.run (patStep head) (patHead head data, []) ops = .ok (s, answers) ∧
      s.Holds head T :=
  patRun_refines (patHead_holds head data) hready

theorem run_of_map_snd {σ β ε ω : Type} {step : σ × β → ω → Except ε (σ × β)} {t : σ × β}
    {ops : List ω} {answers : β} (h : (StepRun.run step t ops).map Prod.snd = .ok answers) :
    ∃ s, StepRun.run step t ops = .ok (s, answers) := by
  cases hrun : StepRun.run step t ops with
  | error e =>
    rw [hrun] at h
    cases h
  | ok s =>
    rw [hrun] at h
    obtain rfl := Except.ok.inj h
    exact ⟨s.1, rfl⟩

/-- Two routes, one of which goes again. -/
def threeRoutes : List (PatOp (Fin 8) Nat) :=
  [.insert 1 0x0a010000 { pmMask := 0xffff0000, pmData := some 11 },
    .insert 2 0x0a010203 { pmMask := 0xff000000, pmData := some 12 },
    .remove 3 0x0a010000 0xffff0000 false]

theorem ready_threeRoutes :
    StepRun.Along (patStep 0) PatOp.Ready (patHead 0 (some 10), []) threeRoutes := by
  decide +kernel

theorem run_threeRoutes : ∃ s, StepRun.run (patStep 0) (patHead 0 (some 10), []) threeRoutes =
    .ok (s, [.inserted (some 0x0a010000), .inserted (some 0x0a000000), .removed 1]) :=
  run_of_map_snd (by decide +kernel)

theorem pat_table_threeRoutes : ∃ T s,
    StepRun.run tableStep (PatTable.start (some 10), []) threeRoutes =
      .ok (T, [.inserted (some 0x0a010000), .inserted (some 0x0a000000), .removed 1]) ∧
    StepRun.run (patStep 0) (patHead 0 (some 10), []) threeRoutes =
      .ok (s, [.inserted (some 0x0a010000), .inserted (some 0x0a000000), .removed 1]) ∧
    s.Holds 0 T := by
  obtain ⟨T, hT⟩ : ∃ T, StepRun.run tableStep (PatTable.start (some 10), []) threeRoutes =
      .ok (T, [.inserted (some 0x0a010000), .inserted (some 0x0a000000), .removed 1]) :=
    run_of_map_snd (by decide +kernel)
  have hruns := pat_table ready_threeRoutes
  rw [hT] at hruns
  obtain ⟨s, hs, hholds⟩ := hruns
  exact ⟨T, s, hT, hs, hholds⟩

end LearningSwitch
