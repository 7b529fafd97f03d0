import LearningSwitch.CircularWindow

namespace LearningSwitch

structure RingProd where
  watermark : UInt32
  spEnqueue : UInt32
  size : UInt32
  mask : UInt32
  head : UInt32
  tail : UInt32

structure RingCons where
  scDequeue : UInt32
  size : UInt32
  mask : UInt32
  head : UInt32
  tail : UInt32

/-- `struct rte_ring`; `ring` is the memory behind it. -/
structure RteRing (α : Type) where
  prod : RingProd
  cons : RingCons
  ring : Nat → α

inductive RingQueueBehavior
  | queueFixed
  | queueVariable
deriving DecidableEq

def ringFSpEnq : UInt32 := 0x0001

def ringFScDeq : UInt32 := 0x0002

def rteRingQuotExceed : UInt32 := 0x80000000

def rteRingSzMask : UInt32 := 0x0fffffff

def enoent : Int32 := 2

def einval : Int32 := 22

def enobufs : Int32 := 105

def edquot : Int32 := 122

variable {α : Type}

/-- `memory` is the zone that `rte_memzone_reserve` returns, if any. -/
def rteRingCreate (memory : Option (Nat → α)) (count flags : UInt32) : Option (RteRing α) :=
  if (count - 1) &&& count ≠ 0 ∨ rteRingSzMask < count then none
  else memory.map fun ring => {
    prod := {
      watermark := count
      spEnqueue := if flags &&& ringFSpEnq ≠ 0 then 1 else 0
      size := count
      mask := count - 1
      head := 0
      tail := 0 }
    cons := {
      scDequeue := if flags &&& ringFScDeq ≠ 0 then 1 else 0
      size := count
      mask := count - 1
      head := 0
      tail := 0 }
    ring }

def rteRingSetWaterMark (r : RteRing α) (count : UInt32) : RteRing α × Int32 :=
  if r.prod.size ≤ count then (r, -einval)
  else
    let count := if count = 0 then r.prod.size else count
    ({ r with prod := { r.prod with watermark := count } }, 0)

/-- How many of the `n` objects asked for are moved when there is room (or there are entries) for
`room` of them, or the value returned at once. -/
def ringQuota (behavior : RingQueueBehavior) (fail : Int32) (n room : UInt32) :
    Except Int32 UInt32 :=
  if room < n then
    match behavior with
    | .queueFixed => .error fail
    | .queueVariable => if room = 0 then .error 0 else .ok room
  else .ok n

theorem ringQuota_ok {behavior : RingQueueBehavior} {fail : Int32} {max room n : UInt32}
    (h : ringQuota behavior fail max room = .ok n) (hmax : 0 < max) :
    0 < n ∧ n ≤ room ∧ n ≤ max := by
  unfold ringQuota at h
  split at h
  next hlt =>
    cases behavior with
    | queueFixed => cases h
    | queueVariable =>
      simp only at h
      split at h
      next => cases h
      next hne =>
        cases h
        exact ⟨UInt32.pos_iff_ne_zero.mpr hne, UInt32.le_refl _, UInt32.le_of_lt hlt⟩
  next hge =>
    cases h
    exact ⟨hmax, UInt32.not_lt.mp hge, UInt32.le_refl _⟩

def RteRing.index (r : RteRing α) (head : UInt32) (i : Nat) : Nat :=
  ((head + UInt32.ofNat i) &&& r.prod.mask).toNat

def RteRing.write (r : RteRing α) (head : UInt32) (i : Nat) (obj : α) : RteRing α :=
  { r with ring := Function.update r.ring (r.index head i) obj }

def RteRing.writeEntries (r : RteRing α) (prodHead : UInt32) (objTable : Nat → α) (n : UInt32) :
    RteRing α :=
  (List.range n.toNat).foldl (fun r i => r.write prodHead i (objTable i)) r

def RteRing.readEntries (r : RteRing α) (consHead n : UInt32) : List α :=
  (List.range n.toNat).map fun i => r.ring (r.index consHead i)

/-- The value returned for `n` objects enqueued. -/
def RteRing.enqueued (r : RteRing α) (behavior : RingQueueBehavior) (n freeEntries : UInt32) :
    Int32 :=
  if r.prod.watermark < (r.prod.mask + 1) - freeEntries + n then
    match behavior with
    | .queueFixed => -edquot
    | .queueVariable => (n ||| rteRingQuotExceed).toInt32
  else
    match behavior with
    | .queueFixed => 0
    | .queueVariable => n.toInt32

/-- The value returned for `n` objects dequeued. -/
def ringDequeued (behavior : RingQueueBehavior) (n : UInt32) : Int32 :=
  match behavior with
  | .queueFixed => 0
  | .queueVariable => n.toInt32

def RteRing.setProdHead (r : RteRing α) (head : UInt32) : RteRing α :=
  { r with prod := { r.prod with head } }

def RteRing.setProdTail (r : RteRing α) (tail : UInt32) : RteRing α :=
  { r with prod := { r.prod with tail } }

def RteRing.setConsHead (r : RteRing α) (head : UInt32) : RteRing α :=
  { r with cons := { r.cons with head } }

def RteRing.setConsTail (r : RteRing α) (tail : UInt32) : RteRing α :=
  { r with cons := { r.cons with tail } }

/-- The call with the ring to itself; `none` if it waits for ever for an earlier enqueue. -/
def rteRingMpDoEnqueue (r : RteRing α) (objTable : Nat → α) (n : UInt32)
    (behavior : RingQueueBehavior) : Option (RteRing α × Int32) :=
  let prodHead := r.prod.head
  let consTail := r.cons.tail
  let freeEntries := r.prod.mask + consTail - prodHead
  match ringQuota behavior (-enobufs) n freeEntries with
  | .error ret => some (r, ret)
  | .ok n =>
    let prodNext := prodHead + n
    let r := r.setProdHead prodNext
    let r := r.writeEntries prodHead objTable n
    let ret := r.enqueued behavior n freeEntries
    if r.prod.tail ≠ prodHead then none
    else some (r.setProdTail prodNext, ret)

def rteRingSpDoEnqueue (r : RteRing α) (objTable : Nat → α) (n : UInt32)
    (behavior : RingQueueBehavior) : RteRing α × Int32 :=
  let prodHead := r.prod.head
  let consTail := r.cons.tail
  let freeEntries := r.prod.mask + consTail - prodHead
  match ringQuota behavior (-enobufs) n freeEntries with
  | .error ret => (r, ret)
  | .ok n =>
    let prodNext := prodHead + n
    let r := r.setProdHead prodNext
    let r := r.writeEntries prodHead objTable n
    let ret := r.enqueued behavior n freeEntries
    (r.setProdTail prodNext, ret)

/-- The call with the ring to itself, and the objects it stores in `obj_table`; `none` if it waits
for ever for an earlier dequeue. -/
def rteRingMcDoDequeue (r : RteRing α) (n : UInt32) (behavior : RingQueueBehavior) :
    Option (RteRing α × List α × Int32) :=
  let consHead := r.cons.head
  let prodTail := r.prod.tail
  let entries := prodTail - consHead
  match ringQuota behavior (-enoent) n entries with
  | .error ret => some (r, [], ret)
  | .ok n =>
    let consNext := consHead + n
    let r := r.setConsHead consNext
    let objTable := r.readEntries consHead n
    if r.cons.tail ≠ consHead then none
    else some (r.setConsTail consNext, objTable, ringDequeued behavior n)

def rteRingScDoDequeue (r : RteRing α) (n : UInt32) (behavior : RingQueueBehavior) :
    RteRing α × List α × Int32 :=
  let consHead := r.cons.head
  let prodTail := r.prod.tail
  let entries := prodTail - consHead
  match ringQuota behavior (-enoent) n entries with
  | .error ret => (r, [], ret)
  | .ok n =>
    let consNext := consHead + n
    let r := r.setConsHead consNext
    let objTable := r.readEntries consHead n
    (r.setConsTail consNext, objTable, ringDequeued behavior n)

/-- `rte_ring_enqueue_bulk` and `rte_ring_enqueue_burst`, by `behavior`. -/
def rteRingEnqueue (r : RteRing α) (objTable : Nat → α) (n : UInt32)
    (behavior : RingQueueBehavior) : Option (RteRing α × Int32) :=
  if r.prod.spEnqueue ≠ 0 then some (rteRingSpDoEnqueue r objTable n behavior)
  else rteRingMpDoEnqueue r objTable n behavior

/-- `rte_ring_dequeue_bulk` and `rte_ring_dequeue_burst`, by `behavior`. -/
def rteRingDequeue (r : RteRing α) (n : UInt32) (behavior : RingQueueBehavior) :
    Option (RteRing α × List α × Int32) :=
  if r.cons.scDequeue ≠ 0 then some (rteRingScDoDequeue r n behavior)
  else rteRingMcDoDequeue r n behavior

def rteRingFull (r : RteRing α) : Bool :=
  (r.cons.tail - r.prod.tail - 1) &&& r.prod.mask == 0

def rteRingEmpty (r : RteRing α) : Bool :=
  r.cons.tail == r.prod.tail

def rteRingCount (r : RteRing α) : UInt32 :=
  (r.prod.tail - r.cons.tail) &&& r.prod.mask

def rteRingFreeCount (r : RteRing α) : UInt32 :=
  (r.cons.tail - r.prod.tail - 1) &&& r.prod.mask

end LearningSwitch
