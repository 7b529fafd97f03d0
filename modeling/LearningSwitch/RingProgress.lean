import LearningSwitch.RingReturns

namespace LearningSwitch

open CircularWindow SpanTiling

variable {α τ : Type}

/-- A thread that has moved the head of its side and not yet the tail. -/
def RingThread.holding : RingThread α → Bool
  | .copying .. | .waiting .. | .ending .. => true
  | _ => false

namespace RingState

variable {s s' : RingState τ α} {t : τ}

/-- Objects reserved by calls that have not returned. -/
def pending (s : RingState τ α) : Nat :=
  (s.reserved .prod - s.done .prod) + (s.reserved .cons - s.done .cons)

theorem holding_of_taken {side : RingSide} {span : Span} (h : s.taken side t = some span) :
    (s.threads t).holding = true := by
  unfold taken RingThread.taken at h
  split at h
  next heq => rw [heq]; rfl
  next heq => rw [heq]; rfl
  next heq => rw [heq]; rfl
  next => cases h

theorem taken_of_holding (h : (s.threads t).holding = true) :
    ∃ side span, s.taken side t = some span := by
  unfold taken RingThread.taken
  split
  next c _ n _ _ _ => exact ⟨c.side, ⟨s.seen t, n.toNat⟩, by simp⟩
  next c _ n _ _ _ => exact ⟨c.side, ⟨s.seen t, n.toNat⟩, by simp⟩
  next c _ n _ _ _ => exact ⟨c.side, ⟨s.seen t, n.toNat⟩, by simp⟩
  next hc hw he =>
    cases hth : s.threads t with
    | copying c head n room moved => exact absurd hth (hc c head n room moved)
    | waiting c head n ret moved => exact absurd hth (hw c head n ret moved)
    | ending c head n ret moved => exact absurd hth (he c head n ret moved)
    | _ => rw [hth] at h; cases h

theorem Inv.not_holding (h : s.Inv) (hp : s.pending = 0) (u : τ) :
    (s.threads u).holding = false := by
  by_contra hu
  obtain ⟨side, span, hspan⟩ := taken_of_holding (by simpa using hu)
  have hin := h.inside hspan
  have hpos := (h.tiles side).pos u span hspan
  unfold pending at hp
  cases side with
  | prod => omega
  | cons => omega

/-- A side on which no call holds positions has its tail at its head. -/
theorem Inv.tail_eq_head (h : s.Inv) {side : RingSide}
    (hside : ∀ u, (s.threads u).holding = true → ∀ d ∈ (s.threads u).call, d.side ≠ side) :
    s.ring.tail side = s.ring.head side := by
  have hnone : ∀ u, s.taken side u = none := by
    intro u
    by_contra hne
    obtain ⟨span, hspan⟩ := Option.ne_none_iff_exists'.mp hne
    obtain ⟨d, hd, hds⟩ := call_of_taken hspan
    exact hside u (holding_of_taken hspan) d hd hds
  rw [h.tail, h.head, (h.tiles side).eq_of_none hnone]

/-- Some thread holds the first of the pending positions of a side. -/
theorem Inv.exists_first (h : s.Inv) (hp : s.pending ≠ 0) :
    ∃ side t n, s.taken side t = some ⟨s.done side, n⟩ := by
  have hside : ∃ side, s.done side < s.reserved side := by
    unfold pending at hp
    by_cases hprod : s.done .prod < s.reserved .prod
    · exact ⟨.prod, hprod⟩
    · exact ⟨.cons, by omega⟩
  obtain ⟨side, hlt⟩ := hside
  obtain ⟨t, span, hspan, hstart⟩ := (h.tiles side).exists_first hlt
  exact ⟨side, t, span.len, by rw [hspan, ← hstart]⟩

variable [DecidableEq τ]

def runThreads (s : RingState τ α) (ts : List τ) : RingState τ α :=
  ts.foldl runThread s

theorem run_runThreads (s : RingState τ α) (ts : List τ) :
    StepRun.run ringStep s (ts.map .run) = .ok (s.runThreads ts) := by
  induction ts generalizing s with
  | nil => rfl
  | cons t ts ih => exact ih (s.runThread t)

/-- `s'` is `s` after steps of `t` that kept the invariant. -/
structure Reaches (s : RingState τ α) (t : τ) (s' : RingState τ α) : Prop where
  steps : ∃ k, s' = s.runThreads (List.replicate k t)
  inv : s'.Inv
  reserved : s'.reserved = s.reserved
  seen : s'.seen = s.seen
  others : ∀ u, u ≠ t → s'.threads u = s.threads u

theorem Reaches.trans {s'' : RingState τ α} (h : s.Reaches t s') (h' : s'.Reaches t s'') :
    s.Reaches t s'' := by
  obtain ⟨k, hk⟩ := h.steps
  obtain ⟨l, hl⟩ := h'.steps
  refine ⟨⟨k + l, ?_⟩, h'.inv, h'.reserved.trans h.reserved, h'.seen.trans h.seen, ?_⟩
  · rw [hl, hk, runThreads, runThreads, runThreads, ← List.foldl_append,
      List.replicate_append_replicate]
  · intro u hu
    rw [h'.others u hu, h.others u hu]

/-- One step of a thread that holds positions. -/
theorem Inv.reaches (h : s.Inv) (hold : (s.threads t).holding = true) :
    s.Reaches t (s.runThread t) := by
  have hd : s.Disciplined (.run t) := by
    simp only [Disciplined]
    split
    next heq => simp [heq, RingThread.holding] at hold
    next => trivial
  refine ⟨⟨1, rfl⟩, h.run hd, ?_, ?_, ?_⟩
  · funext side
    cases ht : s.threads t with
    | admitted c head n room => simp [ht, RingThread.holding] at hold
    | _ => simp [runThread, ht, RingThread.reserves]
  · cases ht : s.threads t with
    | start c => simp [ht, RingThread.holding] at hold
    | _ => simp [runThread, ht, RingThread.sees]
  · intro u hu
    simp [runThread, hu]

/-- The copying loop ends. -/
theorem Inv.finish_copying {c : RingCall α} {head n room : UInt32} (left : Nat) :
    ∀ (s : RingState τ α) (moved : List α), s.Inv →
      s.threads t = .copying c head n room moved → n.toNat - moved.length = left →
      ∃ s' ret moved', s.Reaches t s' ∧ s'.done = s.done ∧
        s'.threads t = .waiting c head n ret moved' := by
  induction left with
  | zero =>
    intro s moved h ht hleft
    have hstep := h.reaches (t := t) (by rw [ht]; rfl)
    have hnot : ¬moved.length < n.toNat := by omega
    refine ⟨_, s.ring.answer n room c, moved, hstep, ?_, ?_⟩
    · funext side
      simp [RingState.done, through, runThread, ht, RingThread.run, hnot]
    · simp [runThread, ht, RingThread.run, hnot]
  | succ left ih =>
    intro s moved h ht hleft
    have hstep := h.reaches (t := t) (by rw [ht]; rfl)
    have hlt : moved.length < n.toNat := by omega
    obtain ⟨s', ret, moved', hreach, hdone, hwait⟩ := ih
      _ (moved ++ [(s.ring.move head moved.length c).2]) hstep.inv
      (by simp [runThread, ht, RingThread.run, hlt])
      (by rw [List.length_append, List.length_singleton]; omega)
    refine ⟨s', ret, moved', hstep.trans hreach, ?_, hwait⟩
    rw [hdone]
    funext side
    simp [RingState.done, through, runThread, ht, RingThread.run, hlt]

theorem Inv.finish_ending (h : s.Inv) {c : RingCall α} {head n : UInt32} {ret : Int32}
    {moved : List α} (ht : s.threads t = .ending c head n ret moved) :
    ∃ s', s.Reaches t s' ∧ s'.threads t = .idle ∧ ∀ side,
      s'.done side = if side = c.side then s.done c.side + n.toNat else s.done side := by
  have hok := h.thread t
  rw [ht] at hok
  obtain ⟨_, hlen, _⟩ := hok
  refine ⟨_, h.reaches (t := t) (by rw [ht]; rfl), ?_, ?_⟩
  · simp [runThread, ht, RingThread.run]
  · intro side
    rw [done_ending ht hlen]
    split
    next hside => rw [hside]
    next => rfl

theorem Inv.finish_waiting (h : s.Inv) {c : RingCall α} {head n : UInt32} {ret : Int32}
    {moved : List α} (ht : s.threads t = .waiting c head n ret moved)
    (hfirst : s.seen t = s.done c.side) :
    ∃ s', s.Reaches t s' ∧ s'.threads t = .idle ∧ ∀ side,
      s'.done side = if side = c.side then s.done c.side + n.toNat else s.done side := by
  have hok := h.thread t
  rw [ht] at hok
  have htail : s.ring.tail c.side = head := by rw [h.tail, hok.1.head, hfirst]
  have hstep := h.reaches (t := t) (by rw [ht]; rfl)
  have hdone : (s.runThread t).done = s.done := by
    funext side
    simp [RingState.done, through, runThread, ht, RingThread.run, htail]
  have hending : (s.runThread t).threads t = .ending c head n ret moved := by
    simp [runThread, ht, RingThread.run, htail]
  obtain ⟨s', hreach, hidle, hdone'⟩ := hstep.inv.finish_ending hending
  refine ⟨s', hstep.trans hreach, hidle, fun side => ?_⟩
  rw [hdone', hdone]

/-- The thread that holds the first positions of a side never waits: its steps bring its call to
an end. -/
theorem Inv.finish (h : s.Inv) {side : RingSide} {n : Nat}
    (hspan : s.taken side t = some ⟨s.done side, n⟩) :
    ∃ s', s.Reaches t s' ∧ s'.threads t = .idle ∧
      ∀ side', s'.done side' = if side' = side then s.done side + n else s.done side' := by
  unfold taken RingThread.taken at hspan
  split at hspan
  next c head m room moved ht =>
    by_cases hc : c.side = side
    · simp [hc] at hspan
      obtain ⟨hseen, rfl⟩ := hspan
      obtain ⟨s₁, ret, moved', hreach, hdone, hwait⟩ := finish_copying _ s moved h ht rfl
      obtain ⟨s', hreach', hidle, hdone'⟩ := hreach.inv.finish_waiting hwait
        (by rw [hreach.seen, hdone, hseen, hc])
      refine ⟨s', hreach.trans hreach', hidle, fun side' => ?_⟩
      rw [hdone', hdone, hc]
    · simp [hc] at hspan
  next c head m ret moved ht =>
    by_cases hc : c.side = side
    · simp [hc] at hspan
      obtain ⟨hseen, rfl⟩ := hspan
      obtain ⟨s', hreach, hidle, hdone⟩ := h.finish_waiting ht (by rw [hseen, hc])
      refine ⟨s', hreach, hidle, fun side' => ?_⟩
      rw [hdone, hc]
    · simp [hc] at hspan
  next c head m ret moved ht =>
    by_cases hc : c.side = side
    · simp [hc] at hspan
      obtain ⟨_, rfl⟩ := hspan
      obtain ⟨s', hreach, hidle, hdone⟩ := h.finish_ending ht
      refine ⟨s', hreach, hidle, fun side' => ?_⟩
      rw [hdone, hc]
    · simp [hc] at hspan
  next => cases hspan

/-- While objects are pending some thread can bring its call to an end, so there is an order of
steps in which all of them do. -/
theorem Inv.drain (left : Nat) : ∀ {s : RingState τ α}, s.Inv → s.pending ≤ left →
    ∃ ts, (∀ u ∈ ts, (s.threads u).holding = true) ∧ (s.runThreads ts).Inv ∧
      (s.runThreads ts).pending = 0 ∧ ∀ u, (s.runThreads ts).threads u =
        if (s.threads u).holding then .idle else s.threads u := by
  induction left with
  | zero =>
    intro s h hp
    have hz : s.pending = 0 := by omega
    exact ⟨[], by simp, h, hz, fun u => by simp [runThreads, h.not_holding hz u]⟩
  | succ left ih =>
    intro s h hp
    by_cases hz : s.pending = 0
    · exact ⟨[], by simp, h, hz, fun u => by simp [runThreads, h.not_holding hz u]⟩
    obtain ⟨side, t, n, hspan⟩ := h.exists_first hz
    have hpos : 0 < n := (h.tiles side).pos t _ hspan
    have hin := h.inside hspan
    simp only at hin
    obtain ⟨s₁, hreach, hidle, hdone⟩ := h.finish hspan
    have hless : s₁.pending ≤ left := by
      unfold pending at hp ⊢
      rw [hreach.reserved, hdone, hdone]
      cases side with
      | prod => simp only [reduceCtorEq, if_true, if_false]; omega
      | cons => simp only [reduceCtorEq, if_true, if_false]; omega
    obtain ⟨ts, hhold, hinv, hzero, hthreads⟩ := ih hreach.inv hless
    obtain ⟨k, rfl⟩ := hreach.steps
    refine ⟨List.replicate k t ++ ts, fun u hmem => ?_, ?_⟩
    · rcases List.mem_append.mp hmem with hmem | hmem
      · rw [List.eq_of_mem_replicate hmem]
        exact holding_of_taken hspan
      · have hu := hhold u hmem
        by_cases he : u = t
        · rw [he, hidle] at hu
          cases hu
        · rwa [hreach.others u he] at hu
    have hsplit : s.runThreads (List.replicate k t ++ ts) =
        (s.runThreads (List.replicate k t)).runThreads ts := List.foldl_append
    rw [hsplit]
    refine ⟨hinv, hzero, fun u => ?_⟩
    rw [hthreads]
    by_cases hu : u = t
    · rw [hu, hidle, holding_of_taken hspan]
      rfl
    · rw [hreach.others u hu]

section

variable {memory : Option (Nat → α)} {count flags : UInt32} {r : RteRing α}
  {as : List (RingAction τ α)}

/-- The waiting loops cannot block each other: from any state reached, steps of the threads that
have moved a head alone bring all their calls to an end, with both tails back at their heads. -/
theorem rte_ring_no_deadlock (hr : rteRingCreate memory count flags = some r) (hcount : count ≠ 0)
    (ha : StepRun.Along ringStep Disciplined (RingState.create τ r) as)
    (hs : StepRun.run ringStep (RingState.create τ r) as = .ok s) :
    ∃ (ts : List τ) (s' : RingState τ α), (∀ u ∈ ts, (s.threads u).holding = true) ∧
      StepRun.run ringStep s (ts.map .run) = .ok s' ∧
      (∀ side, s'.ring.tail side = s'.ring.head side) ∧
      ∀ u, s'.threads u = if (s.threads u).holding then .idle else s.threads u := by
  have h := inv_of_run hr hcount ha hs
  obtain ⟨ts, hhold, hinv, hzero, hthreads⟩ := h.drain _ (Nat.le_refl _)
  refine ⟨ts, _, hhold, run_runThreads s ts, fun side => ?_, hthreads⟩
  have hle := (hinv.tiles side).le
  rw [hinv.head, hinv.tail]
  congr 1
  unfold pending at hzero
  cases side with
  | prod => omega
  | cons => omega

theorem rte_ring_no_deadlock_crossing :
    ∃ r s, rteRingCreate (some fun _ : Nat => 0) 4 0 = some r ∧
      StepRun.run ringStep (RingState.create Bool r) (crossing.take 16) = .ok s ∧
      ∃ (ts : List Bool) (s' : RingState Bool Nat), (∀ u ∈ ts, (s.threads u).holding = true) ∧
        StepRun.run ringStep s (ts.map .run) = .ok s' ∧
        (∀ side, s'.ring.tail side = s'.ring.head side) ∧
        ∀ u, s'.threads u = if (s.threads u).holding then .idle else s.threads u :=
  ⟨_, _, rteRingCreate_four, rfl, rte_ring_no_deadlock rteRingCreate_four (by decide)
    (show StepRun.Along ringStep Disciplined _ (crossing.take 16) by decide +kernel) rfl⟩

end

end RingState

end LearningSwitch
