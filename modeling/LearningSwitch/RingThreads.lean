import LearningSwitch.Ring
import LearningSwitch.SpanTiling
import LearningSwitch.StepRun
import Mathlib.Data.Fintype.Defs

namespace LearningSwitch

open CircularWindow SpanTiling

variable {α τ : Type}

/-- A call that a thread makes; `multi` picks the `mp` and `mc` functions over `sp` and `sc`. -/
inductive RingCall (α : Type)
  | enqueue (multi : Bool) (objTable : Nat → α) (n : UInt32) (behavior : RingQueueBehavior)
  | dequeue (multi : Bool) (n : UInt32) (behavior : RingQueueBehavior)

inductive RingSide
  | prod
  | cons
deriving DecidableEq

namespace RingCall

def side : RingCall α → RingSide
  | enqueue .. => .prod
  | dequeue .. => .cons

def multi : RingCall α → Bool
  | enqueue multi .. | dequeue multi .. => multi

def max : RingCall α → UInt32
  | enqueue _ _ n _ | dequeue _ n _ => n

def behavior : RingCall α → RingQueueBehavior
  | enqueue _ _ _ behavior | dequeue _ _ behavior => behavior

def fail : RingCall α → Int32
  | enqueue .. => -enobufs
  | dequeue .. => -enoent

end RingCall

namespace RteRing

def head (r : RteRing α) : RingSide → UInt32
  | .prod => r.prod.head
  | .cons => r.cons.head

def tail (r : RteRing α) : RingSide → UInt32
  | .prod => r.prod.tail
  | .cons => r.cons.tail

/-- How far the head of a side may move, as the tail of the other side stands. -/
def limit (r : RteRing α) : RingSide → UInt32
  | .prod => r.prod.mask + r.cons.tail
  | .cons => r.prod.tail

def setHead (r : RteRing α) : RingSide → UInt32 → RteRing α
  | .prod => r.setProdHead
  | .cons => r.setConsHead

def setTail (r : RteRing α) : RingSide → UInt32 → RteRing α
  | .prod => r.setProdTail
  | .cons => r.setConsTail

@[simp] theorem head_setHead (r : RteRing α) (side : RingSide) (v : UInt32) :
    (r.setHead side v).head = Function.update r.head side v := by
  funext s
  cases side <;> cases s <;> rfl

@[simp] theorem tail_setHead (r : RteRing α) (side : RingSide) (v : UInt32) :
    (r.setHead side v).tail = r.tail := by
  funext s
  cases side <;> cases s <;> rfl

@[simp] theorem head_setTail (r : RteRing α) (side : RingSide) (v : UInt32) :
    (r.setTail side v).head = r.head := by
  funext s
  cases side <;> cases s <;> rfl

@[simp] theorem tail_setTail (r : RteRing α) (side : RingSide) (v : UInt32) :
    (r.setTail side v).tail = Function.update r.tail side v := by
  funext s
  cases side <;> cases s <;> rfl

@[simp] theorem mask_setHead (r : RteRing α) (side : RingSide) (v : UInt32) :
    (r.setHead side v).prod.mask = r.prod.mask := by
  cases side <;> rfl

@[simp] theorem mask_setTail (r : RteRing α) (side : RingSide) (v : UInt32) :
    (r.setTail side v).prod.mask = r.prod.mask := by
  cases side <;> rfl

@[simp] theorem ring_setHead (r : RteRing α) (side : RingSide) (v : UInt32) :
    (r.setHead side v).ring = r.ring := by
  cases side <;> rfl

@[simp] theorem ring_setTail (r : RteRing α) (side : RingSide) (v : UInt32) :
    (r.setTail side v).ring = r.ring := by
  cases side <;> rfl

/-- One turn of the copying loop, and the object it moves. -/
def move (r : RteRing α) (head : UInt32) (i : Nat) : RingCall α → RteRing α × α
  | .enqueue _ objTable _ _ => (r.write head i (objTable i), objTable i)
  | .dequeue .. => (r, r.ring (r.index head i))

/-- The value that a call returns for `n` objects moved. -/
def answer (r : RteRing α) (n room : UInt32) : RingCall α → Int32
  | .enqueue _ _ _ behavior => r.enqueued behavior n room
  | .dequeue _ _ behavior => ringDequeued behavior n

end RteRing

/-- Where a thread is in its call, with its local variables; `moved` are the objects copied so
far. -/
inductive RingThread (α : Type)
  | idle
  | start (c : RingCall α)
  | headRead (c : RingCall α) (head : UInt32)
  | admitted (c : RingCall α) (head n room : UInt32)
  | copying (c : RingCall α) (head n room : UInt32) (moved : List α)
  | waiting (c : RingCall α) (head n : UInt32) (ret : Int32) (moved : List α)
  | ending (c : RingCall α) (head n : UInt32) (ret : Int32) (moved : List α)

structure RingReturn (α : Type) where
  call : RingCall α
  objs : List α
  ret : Int32

/-- One step of a thread: at most one access to the memory that the threads share. -/
def RingThread.run (r : RteRing α) :
    RingThread α → RteRing α × RingThread α × Option (RingReturn α)
  | .idle => (r, .idle, none)
  | .start c => (r, .headRead c (r.head c.side), none)
  | .headRead c head =>
    let room := r.limit c.side - head
    match ringQuota c.behavior c.fail c.max room with
    | .error ret => (r, .idle, some ⟨c, [], ret⟩)
    | .ok n => (r, .admitted c head n room, none)
  | .admitted c head n room =>
    -- `sp` and `sc` store the head that `mp` and `mc` compare and set
    if c.multi = false ∨ r.head c.side = head then
      (r.setHead c.side (head + n), .copying c head n room [], none)
    else (r, .start c, none)
  | .copying c head n room moved =>
    if moved.length < n.toNat then
      let (r, obj) := r.move head moved.length c
      (r, .copying c head n room (moved ++ [obj]), none)
    else (r, .waiting c head n (r.answer n room c) moved, none)
  | .waiting c head n ret moved =>
    if c.multi = false ∨ r.tail c.side = head then (r, .ending c head n ret moved, none)
    else (r, .waiting c head n ret moved, none)
  | .ending c head n ret moved =>
    (r.setTail c.side (head + n), .idle, some ⟨c, moved, ret⟩)

def RingThread.call : RingThread α → Option (RingCall α)
  | .idle => none
  | .start c | .headRead c _ | .admitted c _ _ _ | .copying c _ _ _ _ | .waiting c _ _ _ _
  | .ending c _ _ _ _ => some c

/-- The ring and its threads. The last three fields are history that no step of the code reads:
the objects that each side has reserved, the number of them when a thread last read the head, and
the calls that returned. -/
structure RingState (τ α : Type) where
  ring : RteRing α
  threads : τ → RingThread α
  reserved : RingSide → Nat
  seen : τ → Nat
  returned : List (τ × RingReturn α)

inductive RingAction (τ α : Type)
  | call (t : τ) (c : RingCall α)
  | run (t : τ)
  | setWaterMark (count : UInt32)

inductive RingError
  | busy
deriving DecidableEq

/-- The objects that a step reserves. -/
def RingThread.reserves : RingThread α → RingThread α → RingSide → Nat
  | .admitted c _ n _, .copying .. => fun side => if side = c.side then n.toNat else 0
  | _, _ => fun _ => 0

def RingThread.sees (reserved : RingSide → Nat) (seen : Nat) : RingThread α → Nat
  | .start c => reserved c.side
  | _ => seen

section

variable [DecidableEq τ]

def RingState.runThread (s : RingState τ α) (t : τ) : RingState τ α :=
  let thread := s.threads t
  let (ring, thread', out) := thread.run s.ring
  { ring
    threads := Function.update s.threads t thread'
    reserved := fun side => s.reserved side + thread.reserves thread' side
    seen := Function.update s.seen t (thread.sees s.reserved (s.seen t))
    returned := s.returned ++ out.toList.map (t, ·) }

def ringStep (s : RingState τ α) : RingAction τ α → Except RingError (RingState τ α)
  | .call t c =>
    if (s.threads t).call.isSome then .error .busy
    else .ok { s with threads := Function.update s.threads t (.start c) }
  | .run t => .ok (s.runThread t)
  | .setWaterMark count => .ok { s with ring := (rteRingSetWaterMark s.ring count).1 }

end

def RingState.create (τ : Type) (r : RteRing α) : RingState τ α where
  ring := r
  threads := fun _ => .idle
  reserved := fun _ => 0
  seen := fun _ => 0
  returned := []

/-- The objects that the calls of a side moved, in the order in which the calls returned. -/
def RingState.through (s : RingState τ α) (side : RingSide) : List α :=
  s.returned.flatMap fun e => if e.2.call.side = side then e.2.objs else []

/-- The entries between the tails. -/
def RteRing.entries (r : RteRing α) : List α :=
  r.readEntries r.cons.tail (r.prod.tail - r.cons.tail)

/-- What the threads keep to: calls ask for at least one object, an `sp` (`sc`) call has its side
of the ring to itself, and fewer than 2^32 objects are reserved on a side between a read of its
head and the compare-and-set. A call for no object moves the head nowhere, so that it holds no
place in the order of the calls of its side: it may pass its wait at a tail that a later call then
overtakes, and puts that tail back. -/
def RingState.Disciplined (s : RingState τ α) : RingAction τ α → Prop
  | .call _ c => 0 < c.max ∧ ∀ u, ∀ d ∈ (s.threads u).call, d.side = c.side →
      d.multi = true ∧ c.multi = true
  | .run t =>
    match s.threads t with
    | .admitted c _ _ _ => c.multi = true → s.reserved c.side < s.seen t + 2 ^ 32
    | _ => True
  | .setWaterMark _ => True

instance [Fintype τ] (s : RingState τ α) : ∀ a, Decidable (s.Disciplined a)
  | .call _ c => inferInstanceAs (Decidable (0 < c.max ∧ ∀ u, ∀ d ∈ (s.threads u).call,
      d.side = c.side → d.multi = true ∧ c.multi = true))
  | .run t =>
    match h : s.threads t with
    | .admitted c _ _ _ =>
      decidable_of_iff (c.multi = true → s.reserved c.side < s.seen t + 2 ^ 32)
        (by simp [RingState.Disciplined, h])
    | .idle | .start _ | .headRead .. | .copying .. | .waiting .. | .ending .. =>
      isTrue (by simp [RingState.Disciplined, h])
  | .setWaterMark _ => isTrue trivial

end LearningSwitch
