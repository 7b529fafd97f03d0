import LearningSwitch.RingReturns

namespace LearningSwitch

open CircularWindow

variable {α : Type}

/-- What a ring is for: at most `capacity` objects, first in, first out. -/
structure BoundedQueue (α : Type) where
  capacity : Nat
  watermark : Nat
  items : List α

/-- The number of objects that a call moves when `room` of the `n` it asks for can be. -/
def queueQuota (behavior : RingQueueBehavior) (fail : Int32) (n room : Nat) : Except Int32 Nat :=
  if n ≤ room then .ok n
  else
    match behavior with
    | .queueFixed => .error fail
    | .queueVariable => if room = 0 then .error 0 else .ok room

namespace BoundedQueue

/-- The value returned for the last `n` objects put in. -/
def answer (q : BoundedQueue α) (n : Nat) : RingQueueBehavior → Int32
  | .queueFixed => if q.watermark ≤ q.items.length then -edquot else 0
  | .queueVariable =>
    if q.watermark ≤ q.items.length then (UInt32.ofNat n ||| rteRingQuotExceed).toInt32
    else (UInt32.ofNat n).toInt32

def enqueue (q : BoundedQueue α) (objTable : Nat → α) (n : Nat) (behavior : RingQueueBehavior) :
    BoundedQueue α × Int32 :=
  match queueQuota behavior (-enobufs) n (q.capacity - q.items.length) with
  | .error ret => (q, ret)
  | .ok n =>
    let q := { q with items := q.items ++ (List.range n).map objTable }
    (q, q.answer n behavior)

def dequeue (q : BoundedQueue α) (n : Nat) (behavior : RingQueueBehavior) :
    BoundedQueue α × List α × Int32 :=
  match queueQuota behavior (-enoent) n q.items.length with
  | .error ret => (q, [], ret)
  | .ok n => ({ q with items := q.items.drop n }, q.items.take n,
      match behavior with
      | .queueFixed => 0
      | .queueVariable => (UInt32.ofNat n).toInt32)

def setWaterMark (q : BoundedQueue α) (count : Nat) : BoundedQueue α × Int32 :=
  if q.capacity < count then (q, -einval)
  else ({ q with watermark := if count = 0 then q.capacity + 1 else count }, 0)

end BoundedQueue

/-- No call under way, and the entries between the tails are those of `q`; `base` of them were
dequeued before. -/
structure RteRing.Holds (r : RteRing α) (base : Nat) (q : BoundedQueue α) : Prop where
  masked : r.Masked
  size : r.prod.size.toNat = r.slots
  capacity : q.capacity = r.prod.mask.toNat
  watermark : q.watermark = r.prod.watermark.toNat
  le : q.items.length ≤ q.capacity
  prodHead : r.prod.head = UInt32.ofNat (base + q.items.length)
  prodTail : r.prod.tail = UInt32.ofNat (base + q.items.length)
  consHead : r.cons.head = UInt32.ofNat base
  consTail : r.cons.tail = UInt32.ofNat base
  cells : window r.ring r.slots base q.items.length = q.items

variable {r : RteRing α} {base : Nat} {q : BoundedQueue α}

theorem ringQuota_eq {behavior : RingQueueBehavior} {fail : Int32} {n room : UInt32} :
    ringQuota behavior fail n room =
      (queueQuota behavior fail n.toNat room.toNat).map UInt32.ofNat := by
  unfold ringQuota queueQuota
  by_cases hlt : room < n
  · have hnot : ¬n.toNat ≤ room.toNat := Nat.not_le.mpr (UInt32.lt_iff_toNat_lt.mp hlt)
    rw [if_pos hlt, if_neg hnot]
    cases behavior with
    | queueFixed => rfl
    | queueVariable =>
      by_cases hz : room = 0
      · simp [hz, Except.map]
      · have hzn : room.toNat ≠ 0 := fun hc => hz (UInt32.toNat_inj.mp hc)
        simp [hz, hzn, Except.map]
  · have hle : n.toNat ≤ room.toNat := UInt32.le_iff_toNat_le.mp (UInt32.not_lt.mp hlt)
    rw [if_neg hlt, if_pos hle]
    simp [Except.map]

theorem queueQuota_le {behavior : RingQueueBehavior} {fail : Int32} {n room k : Nat}
    (h : queueQuota behavior fail n room = .ok k) : k ≤ room := by
  unfold queueQuota at h
  split at h
  next hle =>
    cases h
    exact hle
  next =>
    split at h
    next => cases h
    next =>
      split at h
      next => cases h
      next =>
        cases h
        exact Nat.le_refl _

@[simp] theorem RteRing.write_prod (r : RteRing α) (head : UInt32) (i : Nat) (obj : α) :
    (r.write head i obj).prod = r.prod := rfl

@[simp] theorem RteRing.write_cons (r : RteRing α) (head : UInt32) (i : Nat) (obj : α) :
    (r.write head i obj).cons = r.cons := rfl

/-- The writing loop appends to the window in front of it and touches nothing else. -/
theorem RteRing.Masked.write_range (h : r.Masked) (objTable : Nat → α) (base len k : Nat)
    (hle : len + k ≤ r.prod.mask.toNat) :
    ∃ ring, (List.range k).foldl
        (fun r i => r.write (UInt32.ofNat (base + len)) i (objTable i)) r = { r with ring } ∧
      window ring r.slots base (len + k) =
        window r.ring r.slots base len ++ (List.range k).map objTable := by
  induction k with
  | zero => exact ⟨r.ring, rfl, by simp⟩
  | succ k ih =>
    obtain ⟨ring, hfold, hwin⟩ := ih (by omega)
    have hsize : r.slots = r.prod.mask.toNat + 1 := rfl
    have hindex : RteRing.index { r with ring } (UInt32.ofNat (base + len)) k =
        (base + len + k) % r.slots := h.index (base + len) k
    rw [List.range_succ, List.foldl_append, hfold]
    refine ⟨Function.update ring ((base + (len + k)) % r.slots) (objTable k), ?_, ?_⟩
    · simp only [List.foldl_cons, List.foldl_nil, RteRing.write, hindex, Nat.add_assoc]
    · rw [← Nat.add_assoc len k 1, window_update_succ (by omega), hwin, List.map_append,
        List.append_assoc]
      rfl

namespace RteRing.Holds

theorem room (h : r.Holds base q) :
    (r.prod.mask + r.cons.tail - r.prod.head).toNat = q.capacity - q.items.length := by
  have hle := h.le
  have hcap := h.capacity
  have hb := h.masked.bound
  have hmask : r.prod.mask + UInt32.ofNat base = UInt32.ofNat (base + r.prod.mask.toNat) := by
    rw [UInt32.ofNat_add, UInt32.ofNat_toNat, UInt32.add_comm]
  rw [h.consTail, h.prodHead, hmask, toNat_sub_ofNat (by omega) (by omega)]
  omega

theorem used (h : r.Holds base q) : (r.prod.tail - r.cons.head).toNat = q.items.length := by
  have hle := h.le
  have hcap := h.capacity
  have hb := h.masked.bound
  rw [h.prodTail, h.consHead, toNat_sub_ofNat (by omega) (by omega)]
  omega

/-- The value returned once `n` more objects are in. -/
theorem enqueued (h : r.Holds base q) {r' : RteRing α} {free : UInt32} {n : Nat} {items : List α}
    (hwater : r'.prod.watermark = r.prod.watermark) (hmask : r'.prod.mask = r.prod.mask)
    (hfree : free.toNat = q.capacity - q.items.length) (hn : n ≤ q.capacity - q.items.length)
    (hitems : items.length = q.items.length + n) (behavior : RingQueueBehavior) :
    r'.enqueued behavior (UInt32.ofNat n) free =
      ({ q with items } : BoundedQueue α).answer n behavior := by
  have hle := h.le
  have hcap := h.capacity
  have hb := h.masked.bound
  have hafter : r.prod.mask + 1 - free + UInt32.ofNat n =
      UInt32.ofNat (q.items.length + n + 1) := by
    have hfree' : free = UInt32.ofNat (q.capacity - q.items.length) := by
      rw [← hfree, UInt32.ofNat_toNat]
    have hslots : r.prod.mask + 1 = UInt32.ofNat (q.capacity + 1) := by
      rw [hcap, UInt32.ofNat_add, UInt32.ofNat_toNat]
      rfl
    rw [hfree', hslots, ← UInt32.ofNat_sub (by omega), ← UInt32.ofNat_add]
    congr 1
    omega
  have htest : r'.prod.watermark < r'.prod.mask + 1 - free + UInt32.ofNat n ↔
      q.watermark ≤ items.length := by
    rw [hwater, hmask, hafter, UInt32.lt_iff_toNat_lt, UInt32.toNat_ofNat', h.watermark,
      Nat.mod_eq_of_lt (by omega)]
    omega
  unfold RteRing.enqueued
  by_cases hw : q.watermark ≤ items.length
  · cases behavior <;> simp [BoundedQueue.answer, htest, hw]
  · cases behavior <;> simp [BoundedQueue.answer, htest, hw]

theorem spDoEnqueue (h : r.Holds base q) (objTable : Nat → α) (n : UInt32)
    (behavior : RingQueueBehavior) :
    (rteRingSpDoEnqueue r objTable n behavior).1.Holds base
      (q.enqueue objTable n.toNat behavior).1 ∧
    (rteRingSpDoEnqueue r objTable n behavior).2 = (q.enqueue objTable n.toNat behavior).2 := by
  have hle := h.le
  have hcap := h.capacity
  simp only [rteRingSpDoEnqueue, BoundedQueue.enqueue, ringQuota_eq, h.room]
  cases hq : queueQuota behavior (-enobufs) n.toNat (q.capacity - q.items.length) with
  | error ret => exact ⟨h, rfl⟩
  | ok k =>
    have hk := queueQuota_le hq
    have hb := h.masked.bound
    have hkn : (UInt32.ofNat k).toNat = k := by
      rw [UInt32.toNat_ofNat']
      exact Nat.mod_eq_of_lt (by omega)
    have hmasked : (r.setProdHead (r.prod.head + UInt32.ofNat k)).Masked :=
      ⟨h.masked.power, h.masked.bound⟩
    obtain ⟨ring, hfold, hwin⟩ := hmasked.write_range objTable base q.items.length k
      (by simp only [RteRing.setProdHead]; omega)
    have hfold' : (r.setProdHead (r.prod.head + UInt32.ofNat k)).writeEntries r.prod.head objTable
        (UInt32.ofNat k) = { r.setProdHead (r.prod.head + UInt32.ofNat k) with ring } := by
      rw [RteRing.writeEntries, hkn, h.prodHead]
      rw [h.prodHead] at hfold
      exact hfold
    have hnext : r.prod.head + UInt32.ofNat k = UInt32.ofNat (base + (q.items.length + k)) := by
      rw [h.prodHead, ← UInt32.ofNat_add, Nat.add_assoc]
    have hlen : (q.items ++ (List.range k).map objTable).length = q.items.length + k := by simp
    simp only [Except.map, hfold']
    refine ⟨⟨⟨h.masked.power, h.masked.bound⟩, h.size, hcap, h.watermark, ?_, ?_, ?_,
      h.consHead, h.consTail, ?_⟩, h.enqueued rfl rfl h.room hk hlen behavior⟩
    · simp only [hlen]
      omega
    · simp only [hlen]
      exact hnext
    · simp only [hlen]
      exact hnext
    · simp only [hlen]
      refine Eq.trans hwin ?_
      rw [← h.cells]
      simp [RteRing.setProdHead, RteRing.slots]

theorem scDoDequeue (h : r.Holds base q) (n : UInt32) (behavior : RingQueueBehavior) :
    ∃ k, (rteRingScDoDequeue r n behavior).1.Holds (base + k) (q.dequeue n.toNat behavior).1 ∧
      (rteRingScDoDequeue r n behavior).2 = (q.dequeue n.toNat behavior).2 := by
  have hle := h.le
  have hcap := h.capacity
  have hb := h.masked.bound
  simp only [rteRingScDoDequeue, BoundedQueue.dequeue, ringQuota_eq, h.used]
  cases hq : queueQuota behavior (-enoent) n.toNat q.items.length with
  | error ret => exact ⟨0, h, rfl⟩
  | ok k =>
    have hk := queueQuota_le hq
    have hkn : (UInt32.ofNat k).toNat = k := by
      rw [UInt32.toNat_ofNat']
      exact Nat.mod_eq_of_lt (by omega)
    have hsplit : window r.ring r.slots base q.items.length =
        window r.ring r.slots base k ++ window r.ring r.slots (base + k) (q.items.length - k) :=
      window_split hk
    rw [h.cells] at hsplit
    have htake : q.items.take k = window r.ring r.slots base k := by
      rw [hsplit, List.take_left' length_window]
    have hdrop : q.items.drop k = window r.ring r.slots (base + k) (q.items.length - k) := by
      conv_lhs => rw [hsplit]
      rw [List.drop_left' length_window]
    have hread : (r.setConsHead (r.cons.head + UInt32.ofNat k)).readEntries r.cons.head
        (UInt32.ofNat k) = q.items.take k := by
      rw [htake, RteRing.readEntries, hkn, h.consHead]
      refine List.map_congr_left fun i _ => ?_
      rw [← h.masked.index]
      rfl
    have hnext : r.cons.head + UInt32.ofNat k = UInt32.ofNat (base + k) := by
      rw [h.consHead, ← UInt32.ofNat_add]
    have hend : base + q.items.length = base + k + (q.items.length - k) := by omega
    simp only [Except.map, hread]
    refine ⟨k, ⟨⟨h.masked.power, h.masked.bound⟩, h.size, hcap, h.watermark, ?_, ?_, ?_,
      hnext, hnext, ?_⟩, ?_⟩
    · simp only [List.length_drop]
      omega
    · simp only [List.length_drop, ← hend]
      exact h.prodHead
    · simp only [List.length_drop, ← hend]
      exact h.prodTail
    · simp only [List.length_drop]
      exact hdrop.symm
    · cases behavior <;> rfl

/-- The entries counted are those of the queue. -/
theorem count (h : r.Holds base q) : (rteRingCount r).toNat = q.items.length := by
  have hle := h.le
  have hcap := h.capacity
  have hb := h.masked.bound
  obtain ⟨k, hk⟩ := h.masked.power
  have hdiff : r.prod.tail - r.cons.tail = UInt32.ofNat q.items.length := by
    rw [h.prodTail, h.consTail, ← UInt32.ofNat_sub (by omega), Nat.add_sub_cancel_left]
  rw [rteRingCount, hdiff, toNat_and_mask hk]
  exact Nat.mod_eq_of_lt (by omega)

theorem freeCount (h : r.Holds base q) :
    (rteRingFreeCount r).toNat = q.capacity - q.items.length := by
  have hle := h.le
  have hcap := h.capacity
  have hb := h.masked.bound
  obtain ⟨k, hk⟩ := h.masked.power
  have hlt : r.prod.mask.toNat + 1 ∣ 2 ^ 32 := by
    have hk31 : k ≤ 31 := by
      by_contra hgt
      have := Nat.pow_lt_pow_right (show 1 < 2 by omega) (show 31 < k by omega)
      omega
    rw [hk]
    exact Nat.pow_dvd_pow 2 (by omega)
  obtain ⟨m, hm⟩ := hlt
  have hdiff : r.cons.tail - r.prod.tail - 1 = UInt32.ofNat (2 ^ 32 - q.items.length - 1) := by
    apply UInt32.toNat_inj.mp
    have hone : (1 : UInt32).toNat = 1 := rfl
    rw [h.prodTail, h.consTail, UInt32.toNat_sub, UInt32.toNat_sub, UInt32.toNat_ofNat',
      UInt32.toNat_ofNat', UInt32.toNat_ofNat', hone]
    omega
  have hm0 : m ≠ 0 := by
    rintro rfl
    simp at hm
  -- the turns of the memory that 2^32 is made of, less the entries
  have hturn : 2 ^ 32 - q.items.length - 1 =
      (q.capacity - q.items.length) + (r.prod.mask.toNat + 1) * (m - 1) := by
    obtain ⟨l, rfl⟩ := Nat.exists_eq_succ_of_ne_zero hm0
    rw [hm, Nat.succ_sub_one, Nat.mul_succ]
    omega
  rw [rteRingFreeCount, hdiff, toNat_and_mask hk, hturn, Nat.add_mul_mod_self_left]
  exact Nat.mod_eq_of_lt (by omega)

theorem full (h : r.Holds base q) : rteRingFull r = decide (q.items.length = q.capacity) := by
  have hle := h.le
  have hfree := h.freeCount
  have hzero : rteRingFreeCount r = 0 ↔ q.items.length = q.capacity := by
    rw [← UInt32.toNat_inj, hfree, UInt32.toNat_zero]
    omega
  rw [Bool.eq_iff_iff, decide_eq_true_iff, ← hzero]
  simp [rteRingFull, rteRingFreeCount]

theorem empty (h : r.Holds base q) : rteRingEmpty r = decide (q.items = []) := by
  have hle := h.le
  have hcap := h.capacity
  have hb := h.masked.bound
  have hzero : r.cons.tail = r.prod.tail ↔ q.items = [] := by
    rw [h.prodTail, h.consTail, ← List.length_eq_zero_iff]
    refine ⟨fun he => ?_, fun he => by rw [he, Nat.add_zero]⟩
    have := ofNat_inj_of_near (by omega) (by omega) he
    omega
  rw [Bool.eq_iff_iff, decide_eq_true_iff, ← hzero]
  simp [rteRingEmpty]

theorem setWaterMark (h : r.Holds base q) (count : UInt32) :
    (rteRingSetWaterMark r count).1.Holds base (q.setWaterMark count.toNat).1 ∧
      (rteRingSetWaterMark r count).2 = (q.setWaterMark count.toNat).2 := by
  have hsize := h.size
  have hcap := h.capacity
  have hslots : r.slots = r.prod.mask.toNat + 1 := rfl
  unfold rteRingSetWaterMark BoundedQueue.setWaterMark
  by_cases hge : r.prod.size ≤ count
  · have hgt : q.capacity < count.toNat := by
      have := UInt32.le_iff_toNat_le.mp hge
      omega
    rw [if_pos hge, if_pos hgt]
    exact ⟨h, rfl⟩
  · have hgt : ¬q.capacity < count.toNat := by
      have := mt UInt32.le_iff_toNat_le.mpr hge
      omega
    rw [if_neg hge, if_neg hgt]
    refine ⟨⟨⟨h.masked.power, h.masked.bound⟩, h.size, h.capacity, ?_, h.le, h.prodHead,
      h.prodTail, h.consHead, h.consTail, h.cells⟩, rfl⟩
    by_cases hz : count = 0
    · simp only [hz, UInt32.toNat_zero, if_true]
      omega
    · have hzn : count.toNat ≠ 0 := fun hc => hz (UInt32.toNat_inj.mp hc)
      simp only [hz, hzn, if_false]

end RteRing.Holds

theorem RteRing.writeEntries_prod (r : RteRing α) (head : UInt32) (objTable : Nat → α)
    (n : UInt32) : (r.writeEntries head objTable n).prod = r.prod := by
  unfold RteRing.writeEntries
  induction List.range n.toNat generalizing r with
  | nil => rfl
  | cons i is ih =>
    rw [List.foldl_cons, ih]
    rfl

/-- With no enqueue under way `mp` does what `sp` does. -/
theorem rteRingMpDoEnqueue_eq_sp (h : r.prod.tail = r.prod.head) (objTable : Nat → α) (n : UInt32)
    (behavior : RingQueueBehavior) : rteRingMpDoEnqueue r objTable n behavior =
      some (rteRingSpDoEnqueue r objTable n behavior) := by
  unfold rteRingMpDoEnqueue rteRingSpDoEnqueue
  simp only
  cases ringQuota behavior (-enobufs) n (r.prod.mask + r.cons.tail - r.prod.head) with
  | error ret => rfl
  | ok k =>
    simp only [RteRing.writeEntries_prod]
    rw [if_neg (by simpa [RteRing.setProdHead] using h)]

/-- With no dequeue under way `mc` does what `sc` does. -/
theorem rteRingMcDoDequeue_eq_sc (h : r.cons.tail = r.cons.head) (n : UInt32)
    (behavior : RingQueueBehavior) :
    rteRingMcDoDequeue r n behavior = some (rteRingScDoDequeue r n behavior) := by
  unfold rteRingMcDoDequeue rteRingScDoDequeue
  simp only
  cases ringQuota behavior (-enoent) n (r.prod.tail - r.cons.head) with
  | error ret => rfl
  | ok k =>
    simp only
    rw [if_neg (by simpa [RteRing.setConsHead] using h)]

inductive RingOp (α : Type)
  | enqueue (objTable : Nat → α) (n : UInt32) (behavior : RingQueueBehavior)
  | dequeue (n : UInt32) (behavior : RingQueueBehavior)
  | setWaterMark (count : UInt32)

/-- One call, the objects it hands out and the value it returns. -/
def ringOp (r : RteRing α) : RingOp α → Option (RteRing α × List α × Int32)
  | .enqueue objTable n behavior =>
    (rteRingEnqueue r objTable n behavior).map fun (r, ret) => (r, [], ret)
  | .dequeue n behavior => rteRingDequeue r n behavior
  | .setWaterMark count =>
    let (r, ret) := rteRingSetWaterMark r count
    some (r, [], ret)

def ringOps (r : RteRing α) : List (RingOp α) → Option (RteRing α × List (List α × Int32))
  | [] => some (r, [])
  | op :: ops => do
    let (r, out) ← ringOp r op
    let (r, outs) ← ringOps r ops
    some (r, out :: outs)

def BoundedQueue.op (q : BoundedQueue α) : RingOp α → BoundedQueue α × List α × Int32
  | .enqueue objTable n behavior =>
    let (q, ret) := q.enqueue objTable n.toNat behavior
    (q, [], ret)
  | .dequeue n behavior => q.dequeue n.toNat behavior
  | .setWaterMark count =>
    let (q, ret) := q.setWaterMark count.toNat
    (q, [], ret)

def BoundedQueue.ops (q : BoundedQueue α) : List (RingOp α) →
    BoundedQueue α × List (List α × Int32)
  | [] => (q, [])
  | op :: ops =>
    let (q, out) := q.op op
    let (q, outs) := q.ops ops
    (q, out :: outs)

theorem RteRing.Holds.op (h : r.Holds base q) (op : RingOp α) :
    ∃ r' base', ringOp r op = some (r', (q.op op).2) ∧ r'.Holds base' (q.op op).1 := by
  cases op with
  | enqueue objTable n behavior =>
    obtain ⟨hholds, hret⟩ := h.spDoEnqueue objTable n behavior
    have henq : rteRingEnqueue r objTable n behavior =
        some (rteRingSpDoEnqueue r objTable n behavior) := by
      unfold rteRingEnqueue
      split
      next => rfl
      next => exact rteRingMpDoEnqueue_eq_sp (by rw [h.prodHead, h.prodTail]) objTable n behavior
    refine ⟨_, base, ?_, hholds⟩
    simp [ringOp, henq, BoundedQueue.op, hret]
  | dequeue n behavior =>
    obtain ⟨k, hholds, hret⟩ := h.scDoDequeue n behavior
    have hdeq : rteRingDequeue r n behavior = some (rteRingScDoDequeue r n behavior) := by
      unfold rteRingDequeue
      split
      next => rfl
      next => exact rteRingMcDoDequeue_eq_sc (by rw [h.consHead, h.consTail]) n behavior
    refine ⟨_, base + k, ?_, hholds⟩
    simp only [ringOp, hdeq, BoundedQueue.op, ← hret]
  | setWaterMark count =>
    obtain ⟨hholds, hret⟩ := h.setWaterMark count
    refine ⟨_, base, ?_, hholds⟩
    simp only [ringOp, BoundedQueue.op, ← hret]

theorem RteRing.Holds.ops (ops : List (RingOp α)) : ∀ {r : RteRing α} {base : Nat}
    {q : BoundedQueue α}, r.Holds base q →
      ∃ r' base', ringOps r ops = some (r', (q.ops ops).2) ∧ r'.Holds base' (q.ops ops).1 := by
  induction ops with
  | nil => exact fun h => ⟨_, _, rfl, h⟩
  | cons op ops ih =>
    intro r base q h
    obtain ⟨r₁, base₁, hop, h₁⟩ := h.op op
    obtain ⟨r₂, base₂, hops, h₂⟩ := ih h₁
    exact ⟨r₂, base₂, by simp [ringOps, hop, hops, BoundedQueue.ops], h₂⟩

theorem RteRing.Holds.create {memory : Option (Nat → α)} {count flags : UInt32}
    (h : rteRingCreate memory count flags = some r) (hcount : count ≠ 0) :
    r.Holds 0 { capacity := count.toNat - 1, watermark := count.toNat, items := [] } := by
  obtain ⟨hmasked, hslots⟩ := rteRingCreate_masked h hcount
  unfold rteRingCreate at h
  split at h
  next => cases h
  next =>
    obtain ⟨ring, _, rfl⟩ := Option.map_eq_some_iff.mp h
    simp only at hslots
    refine ⟨hmasked, hslots.symm, ?_, rfl, Nat.zero_le _, rfl, rfl, rfl, rfl, rfl⟩
    simp only
    omega

/-- Calls that do not overlap see the bounded queue, however often the counters wrap and whether
the ring was made for one producer (consumer) or for many. -/
theorem rte_ring_bounded_queue {memory : Option (Nat → α)} {count flags : UInt32}
    (h : rteRingCreate memory count flags = some r) (hcount : count ≠ 0) (ops : List (RingOp α)) :
    ∃ r' q, ringOps r ops = some (r',
        (BoundedQueue.ops { capacity := count.toNat - 1, watermark := count.toNat, items := [] }
          ops).2) ∧
      q = (BoundedQueue.ops { capacity := count.toNat - 1, watermark := count.toNat, items := [] }
        ops).1 ∧
      (rteRingCount r').toNat = q.items.length ∧
      (rteRingFreeCount r').toNat = q.capacity - q.items.length ∧
      rteRingFull r' = decide (q.items.length = q.capacity) ∧
      rteRingEmpty r' = decide (q.items = []) := by
  obtain ⟨r', base', hops, hholds⟩ := (RteRing.Holds.create h hcount).ops ops
  exact ⟨r', _, hops, rfl, hholds.count, hholds.freeCount, hholds.full, hholds.empty⟩

theorem rte_ring_bounded_queue_four : ∃ r r' q,
    rteRingCreate (some fun _ : Nat => 0) 4 0 = some r ∧
    ringOps r [.enqueue (fun i => i) 5 .queueVariable, .dequeue 2 .queueFixed] =
      some (r', [([], 3), ([0, 1], 0)]) ∧
    q = (BoundedQueue.ops { capacity := 3, watermark := 4, items := [] }
      [.enqueue (fun i => i) 5 .queueVariable, .dequeue 2 .queueFixed]).1 ∧
    (rteRingCount r').toNat = q.items.length ∧
    (rteRingFreeCount r').toNat = q.capacity - q.items.length ∧
    rteRingFull r' = decide (q.items.length = q.capacity) ∧
    rteRingEmpty r' = decide (q.items = []) := by
  obtain ⟨r', q, hops, hrest⟩ := rte_ring_bounded_queue rteRingCreate_four (by decide)
    [.enqueue (fun i => i) 5 .queueVariable, .dequeue 2 .queueFixed]
  exact ⟨_, r', q, rteRingCreate_four, hops, hrest⟩

end LearningSwitch
