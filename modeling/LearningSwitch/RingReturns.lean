import LearningSwitch.RingSafety

namespace LearningSwitch

open CircularWindow SpanTiling

variable {α τ : Type}

theorem ringQuota_fixed {fail : Int32} {max room n : UInt32}
    (h : ringQuota .queueFixed fail max room = .ok n) : n = max := by
  unfold ringQuota at h
  split at h
  next => cases h
  next =>
    cases h
    rfl

theorem ringQuota_error {behavior : RingQueueBehavior} {fail ret : Int32} {max room : UInt32}
    (h : ringQuota behavior fail max room = .error ret) : room < max ∧
      (behavior = .queueFixed ∧ ret = fail ∨ behavior = .queueVariable ∧ ret = 0 ∧ room = 0) := by
  unfold ringQuota at h
  split at h
  next hlt =>
    cases behavior with
    | queueFixed =>
      cases h
      exact ⟨hlt, Or.inl ⟨rfl, rfl⟩⟩
    | queueVariable =>
      simp only at h
      split at h
      next hz =>
        cases h
        exact ⟨hlt, Or.inr ⟨rfl, rfl, hz⟩⟩
      next => cases h
  next => cases h

theorem toUInt32_quotExceed {n : UInt32} (h : n.toNat < 2 ^ 31) :
    ((n ||| rteRingQuotExceed).toInt32.toUInt32 &&& 0x7fffffff).toNat = n.toNat := by
  have hq : rteRingQuotExceed.toNat = 2 ^ 31 := rfl
  have hm : (0x7fffffff : UInt32).toNat = 2 ^ 31 - 1 := rfl
  rw [UInt32.toUInt32_toInt32, UInt32.toNat_and, UInt32.toNat_or, hq, hm,
    Nat.and_two_pow_sub_one_eq_mod, Nat.or_mod_two_pow, Nat.mod_self, Nat.or_zero]
  exact Nat.mod_eq_of_lt h

theorem toUInt32_count {n : UInt32} (h : n.toNat < 2 ^ 31) :
    (n.toInt32.toUInt32 &&& 0x7fffffff).toNat = n.toNat := by
  have hm : (0x7fffffff : UInt32).toNat = 2 ^ 31 - 1 := rfl
  rw [UInt32.toUInt32_toInt32, UInt32.toNat_and, hm, Nat.and_two_pow_sub_one_eq_mod]
  exact Nat.mod_eq_of_lt h

/-- What the caller reads off the value returned by a call that moved `n` objects. -/
def RingCall.Answered (c : RingCall α) (n : Nat) (ret : Int32) : Prop :=
  match c.behavior with
  | .queueFixed => (ret = 0 ∨ c.side = .prod ∧ ret = -edquot) ∧ n = c.max.toNat
  | .queueVariable => (ret.toUInt32 &&& 0x7fffffff).toNat = n ∧ n ≤ c.max.toNat

/-- A call either failed and moved nothing, or returned how many objects it moved. -/
def RingReturn.Truthful (e : RingReturn α) : Prop :=
  e.call.Moves e.objs ∧ (e.call.Answered e.objs.length e.ret ∨
    e.call.behavior = .queueFixed ∧ e.objs = [] ∧ e.ret = e.call.fail)

theorem RteRing.answer_answered {r : RteRing α} {c : RingCall α} {n room : UInt32}
    (hlt : n.toNat < 2 ^ 31) (hle : n ≤ c.max) (hfixed : c.behavior = .queueFixed → n = c.max) :
    c.Answered n.toNat (r.answer n room c) := by
  have hle := UInt32.le_iff_toNat_le.mp hle
  cases c with
  | enqueue multi objTable max behavior =>
    cases behavior with
    | queueFixed =>
      refine ⟨?_, by rw [hfixed rfl]⟩
      simp only [RteRing.answer, RteRing.enqueued]
      split
      next => exact Or.inr ⟨rfl, rfl⟩
      next => exact Or.inl rfl
    | queueVariable =>
      refine ⟨?_, hle⟩
      simp only [RteRing.answer, RteRing.enqueued]
      split
      next => exact toUInt32_quotExceed hlt
      next => exact toUInt32_count hlt
  | dequeue multi max behavior =>
    cases behavior with
    | queueFixed => exact ⟨Or.inl rfl, by rw [hfixed rfl]⟩
    | queueVariable => exact ⟨toUInt32_count hlt, hle⟩

/-- The number of objects that a thread is about to move, or the value it is about to return. -/
def RingThread.Fair : RingThread α → Prop
  | .admitted c _ n _ | .copying c _ n _ _ => n ≤ c.max ∧ (c.behavior = .queueFixed → n = c.max)
  | .waiting c _ n ret _ | .ending c _ n ret _ => c.Answered n.toNat ret
  | _ => True

namespace RingState

variable {s : RingState τ α} {t : τ}

/-- One step of a thread, as far as its own call goes. -/
theorem Inv.run_fair (h : s.Inv) (hf : (s.threads t).Fair) {ring : RteRing α} {th' : RingThread α}
    {out : Option (RingReturn α)} (hrun : (s.threads t).run s.ring = (ring, th', out)) :
    th'.Fair ∧ ∀ e ∈ out, e.Truthful := by
  have hok := h.thread t
  cases ht : s.threads t with
  | idle =>
    rw [ht] at hrun
    cases hrun
    exact ⟨trivial, by simp⟩
  | start c =>
    rw [ht] at hrun
    cases hrun
    exact ⟨trivial, by simp⟩
  | headRead c head =>
    rw [ht] at hrun hok
    simp only [RingThread.run] at hrun
    split at hrun
    next ret hq =>
      cases hrun
      refine ⟨trivial, ?_⟩
      intro e he
      cases he
      obtain ⟨_, hfix | hvar⟩ := ringQuota_error hq
      · exact ⟨by cases c <;> simp [RingCall.Moves], Or.inr ⟨hfix.1, rfl, hfix.2⟩⟩
      · refine ⟨by cases c <;> simp [RingCall.Moves], Or.inl ?_⟩
        simp only [RingCall.Answered, hvar.1, hvar.2.1]
        exact ⟨rfl, Nat.zero_le _⟩
    next n hq =>
      cases hrun
      obtain ⟨_, _, hle⟩ := ringQuota_ok hq hok.max
      refine ⟨⟨hle, fun hb => ?_⟩, by simp⟩
      rw [hb] at hq
      exact ringQuota_fixed hq
  | admitted c head n room =>
    rw [ht] at hrun hf
    simp only [RingThread.run] at hrun
    split at hrun
    next =>
      cases hrun
      exact ⟨hf, by simp⟩
    next =>
      cases hrun
      exact ⟨trivial, by simp⟩
  | copying c head n room moved =>
    have hspan : s.taken c.side t = some ⟨s.seen t, n.toNat⟩ := by
      simp [taken, ht, RingThread.taken]
    have hin := h.inside hspan
    have hlt := h.reserved_lt c.side
    rw [ht] at hrun hf
    simp only [RingThread.run] at hrun
    split at hrun
    next =>
      cases hrun
      exact ⟨hf, by simp⟩
    next =>
      cases hrun
      refine ⟨RteRing.answer_answered ?_ hf.1 hf.2, by simp⟩
      simp only at hin
      omega
  | waiting c head n ret moved =>
    rw [ht] at hrun hf
    simp only [RingThread.run] at hrun
    split at hrun
    next =>
      cases hrun
      exact ⟨hf, by simp⟩
    next =>
      cases hrun
      exact ⟨hf, by simp⟩
  | ending c head n ret moved =>
    rw [ht] at hrun hf hok
    obtain ⟨hh, hlen, _⟩ := hok
    cases hrun
    refine ⟨trivial, ?_⟩
    intro e he
    cases he
    refine ⟨hh.moves, Or.inl ?_⟩
    simp only
    rw [hlen]
    exact hf

section

variable [DecidableEq τ] {memory : Option (Nat → α)} {count flags : UInt32} {r : RteRing α}
  {as : List (RingAction τ α)}

/-- The invariant, what each thread is about to return, and what was returned. -/
structure Answering (s : RingState τ α) : Prop where
  inv : s.Inv
  fair : ∀ t, (s.threads t).Fair
  truthful : ∀ t e, (t, e) ∈ s.returned → e.Truthful

theorem Answering.step {s' : RingState τ α} (h : s.Answering) {a : RingAction τ α}
    (hd : s.Disciplined a) (hstep : ringStep s a = .ok s') : s'.Answering := by
  have hinv := h.inv.step hd hstep
  cases a with
  | call t c =>
    simp only [ringStep] at hstep
    split at hstep
    next => cases hstep
    next =>
      cases hstep
      refine ⟨hinv, fun u => ?_, h.truthful⟩
      by_cases hu : u = t
      · simp [hu, RingThread.Fair]
      · simpa [hu] using h.fair u
  | run t =>
    cases hstep
    obtain ⟨ring, th', out, hrun⟩ :
        ∃ ring th' out, (s.threads t).run s.ring = (ring, th', out) := ⟨_, _, _, rfl⟩
    obtain ⟨hth, hout⟩ := h.inv.run_fair (h.fair t) hrun
    rw [runThread_eq hrun] at hinv ⊢
    refine ⟨hinv, fun u => ?_, fun u e he => ?_⟩
    · by_cases hu : u = t
      · simpa [hu] using hth
      · simpa [hu] using h.fair u
    · simp only [List.mem_append, List.mem_map, Option.mem_toList] at he
      rcases he with he | ⟨e', he', heq⟩
      · exact h.truthful u e he
      · cases heq
        exact hout e he'
  | setWaterMark count =>
    cases hstep
    exact ⟨hinv, h.fair, h.truthful⟩

/-- A call that fails finds no room (or not enough entries) at the moment it reads the tail of the
other side, the objects reserved by calls under way counted in, unless the head may by then go
2^32 objects further than it stood when the thread read it. -/
theorem rte_ring_fail (hr : rteRingCreate memory count flags = some r) (hcount : count ≠ 0)
    (ha : StepRun.Along ringStep Disciplined (RingState.create τ r) as)
    (hs : StepRun.run ringStep (RingState.create τ r) as = .ok s) {t : τ} {c : RingCall α}
    {head : UInt32} (ht : s.threads t = .headRead c head)
    (near : s.limit c.side < s.seen t + 2 ^ 32) {e : RingReturn α}
    (hfail : (s.runThread t).returned = s.returned ++ [(t, e)]) :
    s.limit c.side < s.reserved c.side + c.max.toNat ∧
      (c.behavior = .queueVariable → s.limit c.side = s.reserved c.side) := by
  have h := inv_of_run hr hcount ha hs
  have hok := h.thread t
  rw [ht] at hok
  have hle := hok.le
  have hlim := h.le c.side
  have hroom : (s.ring.limit c.side - head).toNat = s.limit c.side - s.seen t := by
    rw [ring_limit h.tail, hok.head]
    exact toNat_sub_ofNat (by omega) near
  cases hq : ringQuota c.behavior c.fail c.max (s.ring.limit c.side - head) with
  | error ret =>
    obtain ⟨hlt, hcase⟩ := ringQuota_error hq
    have hlt := UInt32.lt_iff_toNat_lt.mp hlt
    refine ⟨by omega, fun hb => ?_⟩
    rcases hcase with ⟨hfix, _⟩ | ⟨_, _, hzero⟩
    · rw [hb] at hfix
      cases hfix
    · rw [hzero, UInt32.toNat_zero] at hroom
      omega
  | ok n =>
    have hrun : (s.threads t).run s.ring =
        (s.ring, .admitted c head n (s.ring.limit c.side - head), none) := by
      simp [ht, RingThread.run, hq]
    rw [runThread_eq hrun] at hfail
    simp at hfail

theorem rte_ring_fail_crossing : ∃ r s, rteRingCreate (some fun _ : Nat => 0) 4 0 = some r ∧
    StepRun.run ringStep (RingState.create Bool r) (crossing.take 26) = .ok s ∧
    s.reserved .cons = 3 ∧ s.done .cons = 0 ∧
    s.limit .cons < s.reserved .cons + (1 : UInt32).toNat ∧
    (RingQueueBehavior.queueVariable = .queueVariable → s.limit .cons = s.reserved .cons) :=
  ⟨_, _, rteRingCreate_four, rfl, rfl, rfl, rte_ring_fail rteRingCreate_four (by decide)
    (show StepRun.Along ringStep Disciplined _ (crossing.take 26) by decide +kernel)
    rfl (t := false) (c := .dequeue true 1 .queueVariable) rfl (by decide)
    (e := ⟨.dequeue true 1 .queueVariable, [], 0⟩) rfl⟩

end

end RingState

end LearningSwitch
