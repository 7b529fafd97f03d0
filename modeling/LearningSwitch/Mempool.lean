import LearningSwitch.RingQueue
import LearningSwitch.Setup
import Mathlib.Data.Nat.Size

namespace LearningSwitch

variable {α : Type}

def rteMempoolCacheMaxSize : UInt32 := 512

def mempoolFNoSpread : UInt32 := 0x0001

def mempoolFNoCacheAlign : UInt32 := 0x0002

def mempoolFSpPut : UInt32 := 0x0004

def mempoolFScGet : UInt32 := 0x0008

/-- `struct rte_mempool_cache`; objects from `len` on are stale. -/
structure MempoolCache (α : Type) where
  len : UInt32
  objs : Nat → α

structure RteMempool (α : Type) where
  ring : RteRing α
  flags : UInt32
  size : UInt32
  cacheSize : UInt32
  cacheFlushthresh : UInt32
  localCache : Fin rteMaxLcore → MempoolCache α

/-- An index past the end of the objects of a cache, or a call of the ring that waits for ever. -/
inductive MempoolFault
  | cacheIndex (i : Nat)
  | spin
deriving DecidableEq

def rteAlign32pow2 (x : UInt32) : UInt32 :=
  let x := x - 1
  let x := x ||| (x >>> 1)
  let x := x ||| (x >>> 2)
  let x := x ||| (x >>> 4)
  let x := x ||| (x >>> 8)
  let x := x ||| (x >>> 16)
  x + 1

/-- `memory` and `zone` are what `rte_memzone_reserve` returns for the ring and for the pool,
`null` is what `memset` leaves in a cache, and `objs` are the addresses of the objects. -/
def rteMempoolCreate (memory : Option (Nat → α)) (zone : Bool) (null : α) (objs : Nat → α)
    (n cacheSize flags : UInt32) : Option (RteMempool α) :=
  if rteMempoolCacheMaxSize < cacheSize then none
  else do
    let flags := if flags &&& mempoolFNoCacheAlign ≠ 0 then flags ||| mempoolFNoSpread else flags
    let spEnq := if flags &&& mempoolFSpPut ≠ 0 then ringFSpEnq else 0
    let scDeq := if flags &&& mempoolFScGet ≠ 0 then ringFScDeq else 0
    let r ← rteRingCreate memory (rteAlign32pow2 (n + 1)) (spEnq ||| scDeq)
    if zone = false then none
    else
      let ring := (List.range n.toNat).foldl
        (fun r i => (rteRingSpDoEnqueue r (fun _ => objs i) 1 .queueFixed).1) r
      some {
        ring
        flags
        size := n
        cacheSize
        cacheFlushthresh := .ofNat (cacheSize.toNat * 3 / 2)
        localCache := fun _ => { len := 0, objs := fun _ => null } }

/-- Store `n` objects behind those of a cache and count them. -/
def MempoolCache.push (c : MempoolCache α) (objTable : Nat → α) (n : UInt32) :
    Except MempoolFault (MempoolCache α) :=
  let base := c.len.toNat
  if 3 * rteMempoolCacheMaxSize.toNat < base + n.toNat then
    .error (.cacheIndex (base + n.toNat - 1))
  else .ok {
    len := c.len + n
    objs := fun i => if base ≤ i ∧ i < base + n.toNat then objTable (i - base) else c.objs i }

def spun {β : Type} : Option β → Except MempoolFault β
  | none => .error .spin
  | some b => .ok b

def mempoolRingEnqueue (r : RteRing α) (objTable : Nat → α) (n : UInt32) (isMp : Bool) :
    Except MempoolFault (RteRing α × Int32) :=
  if isMp then spun (rteRingMpDoEnqueue r objTable n .queueFixed)
  else .ok (rteRingSpDoEnqueue r objTable n .queueFixed)

def mempoolRingDequeue (r : RteRing α) (n : UInt32) (isMc : Bool) :
    Except MempoolFault (RteRing α × List α × Int32) :=
  if isMc then spun (rteRingMcDoDequeue r n .queueFixed)
  else .ok (rteRingScDoDequeue r n .queueFixed)

def mempoolPutBulk (mp : RteMempool α) (lcoreId : Fin rteMaxLcore) (objTable : Nat → α)
    (n : UInt32) (isMp : Bool) : Except MempoolFault (RteMempool α) :=
  if mp.cacheSize = 0 ∨ isMp = false ∨ rteMempoolCacheMaxSize < n then do
    let (ring, _) ← mempoolRingEnqueue mp.ring objTable n isMp
    .ok { mp with ring }
  else do
    let cache ← (mp.localCache lcoreId).push objTable n
    if mp.cacheFlushthresh ≤ cache.len then
      let (ring, _) ← spun (rteRingMpDoEnqueue mp.ring
        (fun i => cache.objs (mp.cacheSize.toNat + i)) (cache.len - mp.cacheSize) .queueFixed)
      let cache := { cache with len := mp.cacheSize }
      .ok { mp with ring, localCache := Function.update mp.localCache lcoreId cache }
    else .ok { mp with localCache := Function.update mp.localCache lcoreId cache }

def rteMempoolPutBulk (mp : RteMempool α) (lcoreId : Fin rteMaxLcore) (objTable : Nat → α)
    (n : UInt32) : Except MempoolFault (RteMempool α) :=
  mempoolPutBulk mp lcoreId objTable n (mp.flags &&& mempoolFSpPut == 0)

/-- The part behind the label `ring_dequeue`. -/
def mempoolGetRing (mp : RteMempool α) (n : UInt32) (isMc : Bool) :
    Except MempoolFault (RteMempool α × List α × Int32) := do
  let (ring, objTable, ret) ← mempoolRingDequeue mp.ring n isMc
  .ok ({ mp with ring }, objTable, ret)

/-- `n` objects from the end of a cache. -/
def mempoolCacheTake (mp : RteMempool α) (lcoreId : Fin rteMaxLcore) (cache : MempoolCache α)
    (n : UInt32) : RteMempool α × List α × Int32 :=
  let objTable := (List.range n.toNat).map fun index =>
    cache.objs (cache.len - 1 - UInt32.ofNat index).toNat
  let cache := { cache with len := cache.len - n }
  ({ mp with localCache := Function.update mp.localCache lcoreId cache }, objTable, 0)

def mempoolGetBulk (mp : RteMempool α) (lcoreId : Fin rteMaxLcore) (n : UInt32) (isMc : Bool) :
    Except MempoolFault (RteMempool α × List α × Int32) :=
  if mp.cacheSize = 0 ∨ isMc = false ∨ mp.cacheSize ≤ n then mempoolGetRing mp n isMc
  else
    let cache := mp.localCache lcoreId
    if cache.len < n then do
      let req := n + (mp.cacheSize - cache.len)
      let (ring, objs, ret) ← spun (rteRingMcDoDequeue mp.ring req .queueFixed)
      let mp := { mp with ring }
      if ret < 0 then mempoolGetRing mp n isMc
      else do
        let cache ← cache.push (fun i => objs.getD i (cache.objs i)) req
        .ok (mempoolCacheTake mp lcoreId cache n)
    else .ok (mempoolCacheTake mp lcoreId cache n)

def rteMempoolGetBulk (mp : RteMempool α) (lcoreId : Fin rteMaxLcore) (n : UInt32) :
    Except MempoolFault (RteMempool α × List α × Int32) :=
  mempoolGetBulk mp lcoreId n (mp.flags &&& mempoolFScGet == 0)

def rteMempoolCount (mp : RteMempool α) : UInt32 :=
  let count := rteRingCount mp.ring
  if mp.cacheSize = 0 then count
  else
    let count := (List.finRange rteMaxLcore).foldl
      (fun count lcoreId => count + (mp.localCache lcoreId).len) count
    if mp.size < count then mp.size else count

def rteMempoolFreeCount (mp : RteMempool α) : UInt32 :=
  mp.size - rteMempoolCount mp

def rteMempoolFull (mp : RteMempool α) : Bool :=
  rteMempoolCount mp == mp.size

def rteMempoolEmpty (mp : RteMempool α) : Bool :=
  rteMempoolCount mp == 0

/-- Whether `mempool_audit_cache` returns. -/
def mempoolAuditCache (mp : RteMempool α) : Bool :=
  (List.finRange rteMaxLcore).all fun lcoreId =>
    (mp.localCache lcoreId).len ≤ mp.cacheFlushthresh

end LearningSwitch
