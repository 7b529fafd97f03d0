import LearningSwitch.RingInvariant

namespace LearningSwitch

open CircularWindow SpanTiling

variable {α τ : Type}

/-- A ring of at least one cell has a power of two of them. -/
theorem rteRingCreate_masked {memory : Option (Nat → α)} {count flags : UInt32} {r : RteRing α}
    (h : rteRingCreate memory count flags = some r) (hcount : count ≠ 0) :
    r.Masked ∧ r.prod.mask.toNat + 1 = count.toNat := by
  unfold rteRingCreate at h
  split at h
  next => cases h
  next hok =>
    obtain ⟨hpow, hle⟩ := not_or.mp hok
    obtain ⟨ring, _, rfl⟩ := Option.map_eq_some_iff.mp h
    have hpos : 0 < count.toNat := by
      have := UInt32.toNat_inj.not.mpr hcount
      simp only [UInt32.toNat_zero] at this
      omega
    have hone : (1 : UInt32).toNat = 1 := rfl
    have hmask : (count - 1).toNat = count.toNat - 1 := by
      rw [UInt32.toNat_sub_of_le _ _ (UInt32.le_iff_toNat_le.mpr (by omega)), hone]
    have hsize : rteRingSzMask.toNat = 2 ^ 28 - 1 := rfl
    have hbound := UInt32.le_iff_toNat_le.mp (UInt32.not_lt.mp hle)
    have hand : count.toNat &&& (count.toNat - 1) = 0 := by
      have hz : (count - 1) &&& count = 0 := by simpa using hpow
      rw [← hmask, Nat.and_comm, ← UInt32.toNat_and, hz, UInt32.toNat_zero]
    obtain ⟨k, hk⟩ := (Nat.and_sub_one_eq_zero_iff_isPowerOfTwo (by omega)).mp hand
    have hslots : (count - 1).toNat + 1 = count.toNat := by omega
    exact ⟨⟨⟨k, by rw [hslots, hk]⟩, by simp only [hmask]; omega⟩, hslots⟩

def fourSlots : RteRing Nat where
  prod := { watermark := 4, spEnqueue := 0, size := 4, mask := 3, head := 0, tail := 0 }
  cons := { scDequeue := 0, size := 4, mask := 3, head := 0, tail := 0 }
  ring := fun _ => 0

theorem rteRingCreate_four : rteRingCreate (some fun _ => 0) 4 0 = some fourSlots := rfl

namespace RingState

variable {s : RingState τ α} {t : τ}

theorem Inv.create {memory : Option (Nat → α)} {count flags : UInt32} {r : RteRing α}
    (h : rteRingCreate memory count flags = some r) (hcount : count ≠ 0) :
    (RingState.create τ r).Inv := by
  obtain ⟨hmasked, _⟩ := rteRingCreate_masked h hcount
  have hzero : ∀ side, r.head side = 0 ∧ r.tail side = 0 := by
    intro side
    unfold rteRingCreate at h
    split at h
    next => cases h
    next =>
      obtain ⟨ring, _, rfl⟩ := Option.map_eq_some_iff.mp h
      cases side <;> exact ⟨rfl, rfl⟩
  refine ⟨hmasked, ?_, ?_, ?_, ?_, ?_, ?_, ?_⟩
  · exact fun side => (hzero side).1
  · exact fun side => (hzero side).2
  · intro side
    exact Nat.zero_le _
  · intro side
    exact Tiles.empty 0
  · rfl
  · intro u
    trivial
  · intro u v c d _ hu
    cases hu

/-- Between two steps the cells from the consumers' tail to the producers' tail hold what was
enqueued and not yet dequeued. -/
theorem Inv.entries (h : s.Inv) : s.ring.entries =
    window s.ring.ring s.ring.slots (s.done .cons) (s.done .prod - s.done .cons) := by
  have ho := h.order
  have hb := h.masked.bound
  have hprod : s.ring.prod.tail = UInt32.ofNat (s.done .prod) := h.tail .prod
  have hcons : s.ring.cons.tail = UInt32.ofNat (s.done .cons) := h.tail .cons
  rw [RteRing.entries, RteRing.readEntries, hprod, hcons, toNat_sub_ofNat (by omega) (by omega)]
  refine List.map_congr_left fun i _ => ?_
  rw [h.masked.index]

section

variable [DecidableEq τ] {s' : RingState τ α} {a : RingAction τ α}

theorem ringStep_mask (h : ringStep s a = .ok s') : s'.ring.prod.mask = s.ring.prod.mask := by
  cases a with
  | call t c =>
    simp only [ringStep] at h
    split at h
    next => cases h
    next =>
      cases h
      rfl
  | run t =>
    cases h
    simp only [runThread]
    unfold RingThread.run
    split
    next => rfl
    next => rfl
    next =>
      simp only
      split
      next => rfl
      next => rfl
    next =>
      split
      next => exact RteRing.mask_setHead _ _ _
      next => rfl
    next c _ _ _ _ _ =>
      split
      next => cases c <;> rfl
      next => rfl
    next =>
      split
      next => rfl
      next => rfl
    next => exact RteRing.mask_setTail _ _ _
  | setWaterMark count =>
    cases h
    simp only [rteRingSetWaterMark]
    split
    next => rfl
    next => rfl

end

section

variable [DecidableEq τ] {memory : Option (Nat → α)} {count flags : UInt32} {r : RteRing α}
  {as : List (RingAction τ α)}

theorem inv_of_run (hr : rteRingCreate memory count flags = some r) (hcount : count ≠ 0)
    (ha : StepRun.Along ringStep Disciplined (RingState.create τ r) as)
    (hs : StepRun.run ringStep (RingState.create τ r) as = .ok s) : s.Inv :=
  StepRun.run_invariant (fun _ _ _ h hd hstep => h.step hd hstep) (Inv.create hr hcount) ha hs

theorem mask_of_run (h : StepRun.run ringStep (RingState.create τ r) as = .ok s) :
    s.ring.prod.mask = r.prod.mask := by
  have hkeeps : ∀ (s : RingState τ α) a s', s.ring.prod.mask = r.prod.mask → True →
      ringStep s a = .ok s' → s'.ring.prod.mask = r.prod.mask := by
    intro s a s' hm _ hstep
    rw [ringStep_mask hstep, hm]
  exact StepRun.run_invariant hkeeps rfl (StepRun.along_of_forall (fun _ _ => trivial) _) h

/-- The ring is a queue, whichever way the steps of its producers and consumers interleave: what
the dequeuing calls returned so far, followed by the entries between the tails, is what the
enqueuing calls put in, each in the order in which the calls returned. -/
theorem rte_ring_fifo (hr : rteRingCreate memory count flags = some r) (hcount : count ≠ 0)
    (ha : StepRun.Along ringStep Disciplined (RingState.create τ r) as)
    (hs : StepRun.run ringStep (RingState.create τ r) as = .ok s) :
    s.through .prod = s.through .cons ++ s.ring.entries ∧
      s.ring.entries.length < count.toNat := by
  have h := inv_of_run hr hcount ha hs
  have ho := h.order
  obtain ⟨_, hsize⟩ := rteRingCreate_masked hr hcount
  rw [h.entries, length_window, ← hsize, ← mask_of_run hs]
  exact ⟨h.content, by omega⟩

end

/-- Two producers cross each other, one of them fails its compare-and-set, and a consumer takes
what is there; another one finds nothing while it does. -/
def crossing : List (RingAction Bool Nat) :=
  [.call true (.enqueue true (fun i => 7 + i) 2 .queueFixed),
   .call false (.enqueue true (fun i => 17 + i) 2 .queueVariable),
   .run true, .run false, .run true, .run false, .run true, .run false, .run true, .run true,
   .run true, .run true, .run true, .run false, .run false, .run false, .run false,
   .run false, .run false,
   .call true (.dequeue true 3 .queueVariable),
   .run false, .run true, .run true, .run true,
   .call false (.dequeue true 1 .queueVariable), .run false, .run false,
   .run true, .run true, .run true, .run true, .run true, .run true]

theorem rte_ring_fifo_crossing : ∃ r s, rteRingCreate (some fun _ : Nat => 0) 4 0 = some r ∧
    StepRun.run ringStep (RingState.create Bool r) crossing = .ok s ∧
    s.through .prod = s.through .cons ++ s.ring.entries ∧ s.ring.entries.length < 4 :=
  ⟨_, _, rteRingCreate_four, rfl,
    rte_ring_fifo rteRingCreate_four (by decide)
      (show StepRun.Along ringStep Disciplined _ crossing by decide +kernel) rfl⟩

-- a call for no object puts the tail back behind what a later call has enqueued
example : (StepRun.run ringStep (RingState.create Bool fourSlots)
    [.call true (.enqueue true (fun i => 7 + i) 0 .queueFixed),
     .call false (.enqueue true (fun i => 17 + i) 2 .queueFixed),
     .run true, .run true, .run true, .run true, .run true,
     .run false, .run false, .run false, .run false, .run false, .run false, .run false, .run false,
     .run true]).map (fun s => (s.through .prod, s.through .cons, s.ring.entries)) =
      .ok ([17, 18], [], []) := rfl

end RingState

end LearningSwitch
