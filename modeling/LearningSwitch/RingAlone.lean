import LearningSwitch.RingProgress
import LearningSwitch.RingQueue

namespace LearningSwitch

variable {α τ : Type}

/-- The call as one function, and the objects it stores in the caller's table. -/
def RingCall.alone (r : RteRing α) : RingCall α → Option (RteRing α × List α × Int32)
  | .enqueue multi objTable n behavior =>
    (if multi then rteRingMpDoEnqueue r objTable n behavior
      else some (rteRingSpDoEnqueue r objTable n behavior)).map fun (r, ret) => (r, [], ret)
  | .dequeue multi n behavior =>
    if multi then rteRingMcDoDequeue r n behavior else some (rteRingScDoDequeue r n behavior)

/-- The ring once the first `k` objects of a call are copied. -/
def RingCall.copied (r : RteRing α) (head : UInt32) (k : Nat) : RingCall α → RteRing α
  | .enqueue _ objTable _ _ => (List.range k).foldl (fun r i => r.write head i (objTable i)) r
  | .dequeue .. => r

/-- The first `k` objects that a call moves. -/
def RingCall.moves (r : RteRing α) (head : UInt32) (k : Nat) : RingCall α → List α
  | .enqueue _ objTable _ _ => (List.range k).map objTable
  | .dequeue .. => (List.range k).map fun i => r.ring (r.index head i)

/-- What a call that moved `objs` hands to its caller. -/
def RingCall.handed (objs : List α) : RingCall α → List α
  | .enqueue .. => []
  | .dequeue .. => objs

@[simp] theorem RingCall.length_moves (c : RingCall α) (r : RteRing α) (head : UInt32) (k : Nat) :
    (c.moves r head k).length = k := by
  cases c <;> simp [RingCall.moves]

theorem RingCall.moves_succ (c : RingCall α) (r : RteRing α) (head : UInt32) (k : Nat) :
    c.moves r head (k + 1) = c.moves r head k ++ [((c.copied r head k).move head k c).2] := by
  cases c with
  | enqueue multi objTable n behavior =>
    simp [RingCall.moves, RteRing.move, List.range_succ]
  | dequeue multi n behavior =>
    simp [RingCall.moves, RingCall.copied, RteRing.move, List.range_succ]

theorem RingCall.copied_succ (c : RingCall α) (r : RteRing α) (head : UInt32) (k : Nat) :
    c.copied r head (k + 1) = ((c.copied r head k).move head k c).1 := by
  cases c with
  | enqueue multi objTable n behavior =>
    simp [RingCall.copied, RteRing.move, List.range_succ]
  | dequeue multi n behavior => rfl

theorem RingCall.tail_copied (c : RingCall α) (r : RteRing α) (head : UInt32) (k : Nat)
    (side : RingSide) : (c.copied r head k).tail side = r.tail side := by
  induction k with
  | zero => cases c <;> rfl
  | succ k ih =>
    rw [RingCall.copied_succ, ← ih]
    cases c <;> cases side <;> rfl

theorem RingCall.alone_error {c : RingCall α} {r : RteRing α} {ret : Int32}
    (hq : ringQuota c.behavior c.fail c.max (r.limit c.side - r.head c.side) = .error ret) :
    c.alone r = some (r, [], ret) := by
  cases c with
  | enqueue multi objTable n behavior =>
    have hq' : ringQuota behavior (-enobufs) n (r.prod.mask + r.cons.tail - r.prod.head) =
        .error ret := hq
    cases multi <;> simp [RingCall.alone, rteRingMpDoEnqueue, rteRingSpDoEnqueue, hq']
  | dequeue multi n behavior =>
    have hq' : ringQuota behavior (-enoent) n (r.prod.tail - r.cons.head) = .error ret := hq
    cases multi <;> simp [RingCall.alone, rteRingMcDoDequeue, rteRingScDoDequeue, hq']

/-- The four functions, told apart by what they read and write only. -/
theorem RingCall.alone_ok {c : RingCall α} {r : RteRing α} {n : UInt32}
    (hq : ringQuota c.behavior c.fail c.max (r.limit c.side - r.head c.side) = .ok n)
    (htail : c.multi = false ∨ r.tail c.side = r.head c.side) :
    c.alone r =
      let next := r.head c.side + n
      let r' := c.copied (r.setHead c.side next) (r.head c.side) n.toNat
      some (r'.setTail c.side next,
        c.handed (c.moves (r.setHead c.side next) (r.head c.side) n.toNat),
        r'.answer n (r.limit c.side - r.head c.side) c) := by
  cases c with
  | enqueue multi objTable max behavior =>
    have hq' : ringQuota behavior (-enobufs) max (r.prod.mask + r.cons.tail - r.prod.head) =
        .ok n := hq
    have hmulti : RingCall.alone r (.enqueue multi objTable max behavior) =
        RingCall.alone r (.enqueue false objTable max behavior) := by
      cases multi with
      | false => rfl
      | true =>
        have htail : r.prod.tail = r.prod.head := htail.resolve_left (by simp [RingCall.multi])
        simp [RingCall.alone, rteRingMpDoEnqueue_eq_sp htail]
    rw [hmulti]
    simp only [RingCall.alone, rteRingSpDoEnqueue, hq']
    rfl
  | dequeue multi max behavior =>
    have hq' : ringQuota behavior (-enoent) max (r.prod.tail - r.cons.head) = .ok n := hq
    have hmulti : RingCall.alone r (.dequeue multi max behavior) =
        RingCall.alone r (.dequeue false max behavior) := by
      cases multi with
      | false => rfl
      | true =>
        have htail : r.cons.tail = r.cons.head := htail.resolve_left (by simp [RingCall.multi])
        simp [RingCall.alone, rteRingMcDoDequeue_eq_sc htail]
    rw [hmulti]
    simp only [RingCall.alone, rteRingScDoDequeue, hq']
    rfl

theorem RingThread.run_copied {c : RingCall α} {r : RteRing α} {head n room : UInt32}
    {moved : List α} (h : moved.length = n.toNat) :
    (RingThread.copying c head n room moved).run r =
      (r, .waiting c head n (r.answer n room c) moved, none) := by
  simp [RingThread.run, h]

theorem RingThread.run_waiting {c : RingCall α} {r : RteRing α} {head n : UInt32} {ret : Int32}
    {moved : List α} (h : c.multi = false ∨ r.tail c.side = head) :
    (RingThread.waiting c head n ret moved).run r = (r, .ending c head n ret moved, none) := by
  simp [RingThread.run, h]

namespace RingState

variable [DecidableEq τ] {s : RingState τ α} {t : τ}

/-- `s'` is `s` after `k` steps of `t` and of no other thread. -/
def Alone (s : RingState τ α) (t : τ) (k : Nat) (s' : RingState τ α) : Prop :=
  StepRun.run ringStep s (List.replicate k (.run t)) = .ok s'

theorem Alone.zero (s : RingState τ α) (t : τ) : s.Alone t 0 s := rfl

theorem Alone.step {s' : RingState τ α} {k : Nat} (h : s.Alone t k s') :
    s.Alone t (k + 1) (s'.runThread t) := by
  rw [Alone, List.replicate_succ', StepRun.run_append]
  exact StepRun.bind_eq_ok.mpr ⟨s', h, rfl⟩

/-- The state of the ring, of the thread and of the returned calls. -/
def At (s : RingState τ α) (t : τ) (r : RteRing α) (th : RingThread α)
    (returned : List (τ × RingReturn α)) : Prop :=
  s.ring = r ∧ s.threads t = th ∧ s.returned = returned

theorem Alone.at_step {s' : RingState τ α} {k : Nat} (h : s.Alone t k s') {r : RteRing α}
    {th : RingThread α} {ret : List (τ × RingReturn α)} (hat : s'.At t r th ret)
    {r' : RteRing α} {th' : RingThread α} {out : Option (RingReturn α)}
    (hrun : th.run r = (r', th', out)) :
    ∃ s'', s.Alone t (k + 1) s'' ∧ s''.At t r' th' (ret ++ out.toList.map (t, ·)) := by
  obtain ⟨hring, hth, hret⟩ := hat
  refine ⟨_, h.step, ?_⟩
  rw [runThread_eq (by rw [hth, hring, hrun])]
  exact ⟨rfl, by simp, by rw [hret]⟩

theorem Alone.copy {s₀ : RingState τ α} {l : Nat} (h : s.Alone t l s₀) {c : RingCall α}
    {r : RteRing α} {head n room : UInt32} {ret : List (τ × RingReturn α)}
    (hat : s₀.At t r (.copying c head n room []) ret) (k : Nat) (hk : k ≤ n.toNat) :
    ∃ s', s.Alone t (l + k) s' ∧
      s'.At t (c.copied r head k) (.copying c head n room (c.moves r head k)) ret := by
  induction k with
  | zero =>
    refine ⟨s₀, h, ?_⟩
    cases c <;> exact hat
  | succ k ih =>
    obtain ⟨s', hs', hat'⟩ := ih (by omega)
    have hlt : (c.moves r head k).length < n.toNat := by
      rw [RingCall.length_moves]
      omega
    have hrun : (RingThread.copying c head n room (c.moves r head k)).run (c.copied r head k) =
        (c.copied r head (k + 1), .copying c head n room (c.moves r head (k + 1)), none) := by
      rw [RingThread.run, if_pos hlt, RingCall.copied_succ, RingCall.moves_succ,
        RingCall.length_moves]
    obtain ⟨s'', hs'', hat''⟩ := hs'.at_step hat' hrun
    exact ⟨s'', hs'', by simpa using hat''⟩

/-- What `k` steps of `t` alone did: its call returned, with the ring and the value of the
function. -/
structure Finishes (s : RingState τ α) (t : τ) (c : RingCall α) (k : Nat)
    (s' : RingState τ α) : Prop where
  steps : s.Alone t k s'
  idle : s'.threads t = .idle
  returned : ∃ e : RingReturn α, s'.returned = s.returned ++ [(t, e)] ∧ e.call = c ∧
    c.alone s.ring = some (s'.ring, c.handed e.objs, e.ret)

/-- A call with no room, or no entries, returns at the access that reads the other tail. -/
theorem finishes_of_error {c : RingCall α} (ht : s.threads t = .start c) {ret : Int32}
    (hq : ringQuota c.behavior c.fail c.max (s.ring.limit c.side - s.ring.head c.side) =
      .error ret) : ∃ s', s.Finishes t c 2 s' := by
  have hat : s.At t s.ring (.start c) s.returned := ⟨rfl, ht, rfl⟩
  obtain ⟨s₁, hs₁, hat₁⟩ := (Alone.zero s t).at_step hat rfl
  have hfail : (RingThread.headRead c (s.ring.head c.side)).run s.ring =
      (s.ring, .idle, some ⟨c, [], ret⟩) := by
    simp [RingThread.run, hq]
  obtain ⟨s₂, hs₂, hring, hidle, hret⟩ := hs₁.at_step hat₁ hfail
  refine ⟨s₂, hs₂, hidle, ⟨c, [], ret⟩, by simpa using hret, rfl, ?_⟩
  rw [RingCall.alone_error hq, hring]
  cases c <;> rfl

/-- A call that moves `n` objects makes six accesses and one for each object. -/
theorem finishes_of_ok {c : RingCall α} (ht : s.threads t = .start c) {n : UInt32}
    (hq : ringQuota c.behavior c.fail c.max (s.ring.limit c.side - s.ring.head c.side) = .ok n)
    (htail : c.multi = false ∨ s.ring.tail c.side = s.ring.head c.side) :
    ∃ s', s.Finishes t c (n.toNat + 6) s' := by
  have hat : s.At t s.ring (.start c) s.returned := ⟨rfl, ht, rfl⟩
  obtain ⟨s₁, hs₁, hat₁⟩ := (Alone.zero s t).at_step hat rfl
  have hadmit : (RingThread.headRead c (s.ring.head c.side)).run s.ring =
      (s.ring, .admitted c (s.ring.head c.side) n
        (s.ring.limit c.side - s.ring.head c.side), none) := by
    simp [RingThread.run, hq]
  obtain ⟨s₂, hs₂, hat₂⟩ := hs₁.at_step hat₁ hadmit
  have hset : (RingThread.admitted c (s.ring.head c.side) n
      (s.ring.limit c.side - s.ring.head c.side)).run s.ring =
      (s.ring.setHead c.side (s.ring.head c.side + n), .copying c (s.ring.head c.side) n
        (s.ring.limit c.side - s.ring.head c.side) [], none) := by
    simp [RingThread.run]
  obtain ⟨s₃, hs₃, hat₃⟩ := hs₂.at_step hat₂ hset
  obtain ⟨s₄, hs₄, hat₄⟩ := hs₃.copy hat₃ n.toNat (Nat.le_refl _)
  obtain ⟨s₅, hs₅, hat₅⟩ := hs₄.at_step hat₄
    (RingThread.run_copied (RingCall.length_moves _ _ _ _))
  obtain ⟨s₆, hs₆, hat₆⟩ := hs₅.at_step hat₅
    (RingThread.run_waiting (by simpa [RingCall.tail_copied] using htail))
  obtain ⟨s₇, hs₇, hring, hidle, hret⟩ := hs₆.at_step hat₆ rfl
  simp only [Option.toList_none, List.map_nil, List.append_nil, Option.toList_some,
    List.map_cons] at hret
  have hsteps : 0 + 1 + 1 + 1 + n.toNat + 1 + 1 + 1 = n.toNat + 6 := by omega
  rw [hsteps] at hs₇
  refine ⟨s₇, hs₇, hidle, _, hret, rfl, ?_⟩
  rw [RingCall.alone_ok hq htail, hring]

section

variable {memory : Option (Nat → α)} {count flags : UInt32} {r : RteRing α}
  {as : List (RingAction τ α)}

/-- A thread that is left alone at the start of a call, when no other call on its side has moved
the head and not yet the tail, is done after at most six accesses and one for each object. -/
theorem rte_ring_alone (hr : rteRingCreate memory count flags = some r) (hcount : count ≠ 0)
    (ha : StepRun.Along ringStep Disciplined (RingState.create τ r) as)
    (hs : StepRun.run ringStep (RingState.create τ r) as = .ok s) {c : RingCall α}
    (ht : s.threads t = .start c)
    (hside : ∀ u, (s.threads u).holding = true → ∀ d ∈ (s.threads u).call, d.side ≠ c.side) :
    ∃ (k : Nat) (s' : RingState τ α), k ≤ c.max.toNat + 6 ∧ s.Finishes t c k s' := by
  have h := inv_of_run hr hcount ha hs
  have hok := h.thread t
  rw [ht] at hok
  cases hq : ringQuota c.behavior c.fail c.max (s.ring.limit c.side - s.ring.head c.side) with
  | error ret =>
    obtain ⟨s', hs'⟩ := finishes_of_error ht hq
    exact ⟨2, s', by omega, hs'⟩
  | ok n =>
    obtain ⟨s', hs'⟩ := finishes_of_ok ht hq (Or.inr (h.tail_eq_head hside))
    obtain ⟨_, _, hle⟩ := ringQuota_ok hq hok
    have := UInt32.le_iff_toNat_le.mp hle
    exact ⟨n.toNat + 6, s', by omega, hs'⟩

theorem rte_ring_alone_crossing : ∃ (s : RingState Bool Nat) (k : Nat) (s' : RingState Bool Nat),
    StepRun.run ringStep (RingState.create Bool fourSlots) (crossing.take 20) = .ok s ∧
    k ≤ (3 : UInt32).toNat + 6 ∧ s.Finishes true (.dequeue true 3 .queueVariable) k s' := by
  obtain ⟨k, s', h⟩ := rte_ring_alone (t := true) (c := .dequeue true 3 .queueVariable)
    rteRingCreate_four (by decide)
    (show StepRun.Along ringStep Disciplined _ (crossing.take 20) by decide +kernel) rfl rfl
    (by decide)
  exact ⟨_, k, s', rfl, h⟩

end

end RingState

end LearningSwitch
