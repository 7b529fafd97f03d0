import Mathlib.Algebra.Ring.Int.Defs
import Mathlib.Logic.Function.Basic

namespace LearningSwitch

/-- What the functions of the trie can run into. -/
inductive PatFault
  /-- a NULL pointer, or one to a node that is not allocated -/
  | deref
  /-- `p_m[index]` past the end -/
  | maskIndex (index : Nat)
  /-- a shift by `31 - i` that an `int` does not have -/
  | shift (i : Int)
  /-- a copy past the end of the new masks -/
  | bufOverrun
  /-- a loop of more than `patSteps` rounds -/
  | endless
  /-- a sum that an `int` does not hold -/
  | intOverflow
deriving DecidableEq

variable {α δ σ : Type}

/-- `struct ptree_mask` -/
structure PtreeMask (δ : Type) where
  pmMask : UInt64
  pmData : Option δ
deriving DecidableEq

/-- `struct ptree`; its masks belong to it alone. -/
structure Ptree (α δ : Type) where
  pKey : UInt64
  pM : Option (List (PtreeMask δ))
  pMlen : UInt8
  pB : Int8
  pLeft : Option α
  pRight : Option α
deriving DecidableEq

/-- The allocated nodes, and the data blocks that were freed. -/
structure PatHeap (α δ : Type) where
  node : α → Option (Ptree α δ)
  freed : List δ

def deref (p : Option α) : Except PatFault α :=
  match p with
  | none => .error .deref
  | some a => .ok a

/-- `t->p_m[0]` -/
def Ptree.firstMask (c : Ptree α δ) : Except PatFault (PtreeMask δ) :=
  match c.pM with
  | none => .error .deref
  | some [] => .error (.maskIndex 0)
  | some (m :: _) => .ok m

/-- The entries that `p_mlen` speaks of. -/
def Ptree.masks (c : Ptree α δ) : Except PatFault (List (PtreeMask δ)) :=
  match c.pM with
  | none => .error .deref
  | some ms =>
    if c.pMlen.toNat ≤ ms.length then .ok (ms.take c.pMlen.toNat)
    else .error (.maskIndex ms.length)

def Ptree.child (c : Ptree α δ) (right : Bool) : Option α :=
  if right then c.pRight else c.pLeft

def Ptree.setChild (c : Ptree α δ) (right : Bool) (p : Option α) : Ptree α δ :=
  if right then { c with pRight := p } else { c with pLeft := p }

def PatHeap.load (s : PatHeap α δ) (a : α) : Except PatFault (Ptree α δ) :=
  match s.node a with
  | none => .error .deref
  | some c => .ok c

def PatHeap.store [DecidableEq α] (s : PatHeap α δ) (a : α) (c : Ptree α δ) : PatHeap α δ :=
  { s with node := Function.update s.node a (some c) }

def PatHeap.free [DecidableEq α] (s : PatHeap α δ) (a : α) : PatHeap α δ :=
  { s with node := Function.update s.node a none }

def PatHeap.freeData (s : PatHeap α δ) (data : Option δ) : PatHeap α δ :=
  { s with freed := s.freed ++ data.toList }

/-- `1 << (31 - i)` is an `int`: its sign reaches the upper half of the `unsigned long`. -/
def bit (i : Int) (key : UInt64) : Except PatFault UInt64 :=
  if 0 ≤ i ∧ i ≤ 31 then .ok (key &&& ⟨(1#32 <<< (31 - i).toNat).signExtend 64⟩)
  else .error (.shift i)

def bitSet (i : Int) (key : UInt64) : Except PatFault Bool := do
  let b ← bit i key
  .ok (b != 0)

/-- `p_b` rises from round to round, and a `char` has 256 values. -/
def patSteps : Nat := 257

/-- `count += more` on an `int` -/
def addCount (count more : Int) : Except PatFault Int :=
  if count + more < 2 ^ 31 then .ok (count + more) else .error .intOverflow

def patCount (s : PatHeap α δ) : Nat → Option α → Int → Except PatFault Int
  | 0, _, _ => .error .endless
  | fuel + 1, t, b => do
    let t ← deref t
    let c ← s.load t
    if c.pB.toInt ≤ b then .ok 0
    else do
      let count : Int := c.pMlen.toNat
      let left ← patCount s fuel c.pLeft c.pB.toInt
      let count ← addCount count left
      let right ← patCount s fuel c.pRight c.pB.toInt
      addCount count right

/-- The loop that four places of the source share: from `t` along the bits of `key` until a link
leads back. `visit` is what its body does at each node besides. -/
def descend (s : PatHeap α δ) (key : UInt64) (visit : σ → α → Except PatFault σ) :
    Nat → σ → α → Except PatFault (σ × α)
  | 0, _, _ => .error .endless
  | fuel + 1, seen, t => do
    let seen ← visit seen t
    let c ← s.load t
    let right ← bitSet c.pB.toInt key
    let next ← deref (c.child right)
    let c' ← s.load next
    if c.pB.toInt < c'.pB.toInt then descend s key visit fuel seen next else .ok (seen, next)

def insertR [DecidableEq α] (s : PatHeap α δ) (n : α) (d : Int) :
    Nat → Option α → α → Except PatFault (α × PatHeap α δ)
  | 0, _, _ => .error .endless
  | fuel + 1, h, p => do
    let h ← deref h
    let ch ← s.load h
    let cp ← s.load p
    let cn ← s.load n
    if d ≤ ch.pB.toInt ∨ ch.pB.toInt ≤ cp.pB.toInt then do
      let right ← bitSet d cn.pKey
      .ok (n, s.store n { cn with
        pB := .ofInt d
        pLeft := some (if right then h else n)
        pRight := some (if right then n else h) })
    else do
      let right ← bitSet ch.pB.toInt cn.pKey
      let (c, s) ← insertR s n d fuel (ch.child right) h
      let ch ← s.load h
      .ok (h, s.store h (ch.setChild right (some c)))

/-- The first of the bits `i` to 31 that differs, or 32. -/
def firstDiff (key key' : UInt64) : Nat → Int → Except PatFault Int
  | 0, i => .ok i
  | rounds + 1, i => do
    let b ← bit i key
    let b' ← bit i key'
    if b = b' then firstDiff key key' rounds (i + 1) else .ok i

/-- The loop that copies the old masks and the new one into `room` entries: once copied, the new
one is tried again as `0xffffffff`. -/
def mergeMasks : Nat → PtreeMask δ → Bool → List (PtreeMask δ) →
    Except PatFault (List (PtreeMask δ))
  | _, _, true, [] => .ok []
  | 0, _, _, _ => .error .bufOverrun
  | _ + 1, m, false, [] => .ok [m]
  | room + 1, m, copied, x :: xs =>
    if x.pmMask < m.pmMask then do
      let buf ← mergeMasks room m copied xs
      .ok (x :: buf)
    else do
      let buf ← mergeMasks room { m with pmMask := 0xffffffff } true (x :: xs)
      .ok (m :: buf)

/-- The part of `pat_insert` for a key that the trie has: the node `n` goes, its mask stays. -/
def addMask [DecidableEq α] (s : PatHeap α δ) (n t : α) (m : PtreeMask δ) :
    Except PatFault (PatHeap α δ) := do
  let c ← s.load t
  let ms ← c.masks
  match ms.findIdx? fun x => m.pmMask = x.pmMask with
  | some i =>
    let pM := c.pM.map fun ms => ms.modify i fun x => { x with pmData := m.pmData }
    .ok ((s.store t { c with pM }).free n)
  | none => do
    let buf ← mergeMasks (ms.length + 1) m false ms
    let s := s.free n
    let c ← s.load t
    .ok (s.store t { c with pMlen := c.pMlen + 1, pM := some buf })

/-- The part of `pat_insert` for a new key; `key'` is the closest that the trie has. -/
def insertNode [DecidableEq α] (s : PatHeap α δ) (n head : α) (key key' : UInt64) :
    Except PatFault (PatHeap α δ) := do
  let i ← firstDiff key key' 31 1
  let ch ← s.load head
  let right ← bitSet ch.pB.toInt key
  let (child, s) ← insertR s n i patSteps (ch.child right) head
  let ch ← s.load head
  .ok (s.store head (ch.setChild right (some child)))

/-- The part of `pat_insert` behind the masking of the key. -/
def insertMasked [DecidableEq α] (s : PatHeap α δ) (n head : α) (key : UInt64) (m : PtreeMask δ) :
    Except PatFault (Option α × PatHeap α δ) := do
  let (_, t) ← descend s key (fun _ _ => .ok ()) patSteps () head
  let ct ← s.load t
  if key = ct.pKey then do
    let s ← addMask s n t m
    .ok (some t, s)
  else do
    let s ← insertNode s n head key ct.pKey
    .ok (some n, s)

def patInsert [DecidableEq α] (s : PatHeap α δ) (n head : Option α) :
    Except PatFault (Option α × PatHeap α δ) :=
  match head, n with
  | some head, some n => do
    let c ← s.load n
    match c.pM with
    | none => .ok (none, s)
    | some _ => do
      let m ← c.firstMask
      insertMasked (s.store n { c with pKey := c.pKey &&& m.pmMask }) n head
        (c.pKey &&& m.pmMask) m
  | _, _ => .ok (none, s)

/-- The part of `pat_remove` that takes a whole node out: `t` gives up its link and its data, and
takes over those of its parent `p`, whose memory is freed. -/
def removeNode [DecidableEq α] (s : PatHeap α δ) (key : UInt64) (g p t : α) :
    Except PatFault (PatHeap α δ) := do
  let cp ← s.load p
  let (pp, _) ← descend s cp.pKey (fun _ pt => .ok pt) patSteps p p
  let cpp ← s.load pp
  let right ← bitSet cpp.pB.toInt cp.pKey
  let s := s.store pp (cpp.setChild right (some t))
  let cg ← s.load g
  let right ← bitSet cg.pB.toInt key
  let cp ← s.load p
  let rightP ← bitSet cp.pB.toInt key
  let s := s.store g (cg.setChild right (cp.child !rightP))
  let ct ← s.load t
  let m ← ct.firstMask
  let s := s.freeData m.pmData
  if t = p then .ok (s.free p)
  else do
    let cp ← s.load p
    let s := s.store t { ct with pKey := cp.pKey, pM := cp.pM, pMlen := cp.pMlen }
    .ok (s.free p)

/-- The part of `pat_remove` for a node of several masks. -/
def removeMask [DecidableEq α] (s : PatHeap α δ) (m : PtreeMask δ) (t : α) :
    Except PatFault (Int × PatHeap α δ) := do
  let c ← s.load t
  let ms ← c.masks
  if ∀ x ∈ ms, m.pmMask ≠ x.pmMask then .ok (0, s)
  else
    let buf := ms.filter fun x => m.pmMask ≠ x.pmMask
    .ok (1, s.store t { c with pMlen := c.pMlen - 1, pM := some buf })

/-- `strayNull`: the variable `t` that the first test reads happens to hold NULL; nothing was
stored in it. -/
def patRemove [DecidableEq α] (s : PatHeap α δ) (strayNull : Bool) (n head : Option α) :
    Except PatFault (Int × PatHeap α δ) :=
  match n with
  | none => .ok (0, s)
  | some n => do
    let c ← s.load n
    match c.pM with
    | none => .ok (0, s)
    | some _ =>
      if strayNull then .ok (0, s)
      else do
        let head ← deref head
        let ((g, p), t) ← descend s c.pKey (fun seen t => .ok (seen.2, t)) patSteps (head, head) head
        let ct ← s.load t
        if ct.pKey ≠ c.pKey then .ok (0, s)
        else if ct.pMlen = 1 then
          if ct.pB = 0 then .ok (0, s)
          else do
            let mt ← ct.firstMask
            let m ← c.firstMask
            if mt.pmMask ≠ m.pmMask then .ok (0, s)
            else do
              let s ← removeNode s c.pKey g p t
              .ok (1, s)
        else do
          let m ← c.firstMask
          removeMask s m t

/-- The key of the node is what its first mask leaves of `key`. -/
def PatHeap.covers (s : PatHeap α δ) (key : UInt64) (t : α) : Except PatFault Bool := do
  let c ← s.load t
  let m ← c.firstMask
  .ok (c.pKey == key &&& m.pmMask)

def patSearch (s : PatHeap α δ) (key : UInt64) (head : Option α) : Except PatFault (Option α) :=
  match head with
  | none => .ok none
  | some head => do
    let cover := fun p t => do
      let hit ← s.covers key t
      .ok (if hit then some t else p)
    let (p, t) ← descend s key cover patSteps none head
    cover p t

/-- The default node at the head, as the test program sets it up. -/
def patHead [DecidableEq α] (head : α) (data : Option δ) : PatHeap α δ where
  node := Function.update (fun _ => none) head (some {
    pKey := 0
    pM := some [{ pmMask := 0, pmData := data }]
    pMlen := 1
    pB := 0
    pLeft := some head
    pRight := some head })
  freed := []

/-- A node as a caller hands it in, with one mask. -/
def patNode (key mask : UInt64) (data : Option δ) : Ptree α δ where
  pKey := key
  pM := some [{ pmMask := mask, pmData := data }]
  pMlen := 1
  pB := 0
  pLeft := none
  pRight := none

end LearningSwitch
