import Mathlib.Data.Nat.Digits.Defs
import Mathlib.Data.Fintype.Card
import Mathlib.Logic.Function.Basic
import LearningSwitch.LinkedChain

namespace LearningSwitch

/-- What C++ throws or leaves undefined on the paths of the switch. -/
inductive Fault
  /-- `bitset::set` past the end -/
  | outOfRange (pos : Nat)
  /-- `bitset[pos]` past the end -/
  | bitsetRead (pos : Nat)
  /-- a copy past the end of a local array -/
  | stackOverrun
  /-- a read through the `end()` iterator of a map -/
  | endDeref
  /-- a call through a callback that was never set -/
  | nullCall
  /-- `tx_mbufs[port]` past the end -/
  | portIndex (port : UInt8)
  /-- `m_table[index]` past the end -/
  | tableIndex (index : Nat)
deriving DecidableEq

/-- The three mempools that `init_eal` creates. -/
inductive Pool
  | packet
  | header
  | clone
deriving DecidableEq

def pktmbufHeadroom : UInt16 := 128

/-- `elt_size - sizeof(struct rte_mbuf)` of each pool, from the `*_MBUF_SIZE` macros. -/
def Pool.dataRoom : Pool → UInt16
  | .packet => 2048 + pktmbufHeadroom
  | .header => 2 * pktmbufHeadroom
  | .clone => 0

/-- `struct rte_pktmbuf` over `n` mbufs; `data` is kept as an offset from `buf_addr`. -/
structure Pktmbuf (n : Nat) where
  next : Option (Fin n)
  data : Nat
  dataLen : UInt16
  nbSegs : UInt8
  inPort : UInt8
  pktLen : UInt32
  vlanMacip : UInt32
  hash : UInt32

/-- `struct rte_mbuf`. `bufAddr` names the mbuf whose data room `buf_addr` points into, and
`room` holds the bytes of the mbuf's own data room. -/
structure Mbuf (n : Nat) where
  pool : Pool
  bufAddr : Fin n
  bufLen : UInt16
  refcnt : UInt16
  olFlags : UInt16
  pkt : Pktmbuf n
  room : Nat → UInt8

/-- A packet as it stands when it is handed to `pkt_send_single`: `data`, `data_len`, `pkt_len`
and the bytes of its first segment. -/
structure FrameView where
  data : Nat
  dataLen : UInt16
  pktLen : UInt32
  bytes : List UInt8
deriving DecidableEq

/-- What the switch does to mbufs, in order. `freeSeg` records whether the mbuf was already
back in its pool, `accept` and `reject` what became of each entry of a burst. -/
inductive Event (n : Nat)
  | get (m : Fin n)
  | getFailed (mp : Pool)
  | put (m : Fin n)
  | freeSeg (m : Fin n) (pooled : Bool)
  | free (m : Option (Fin n))
  | send (port : UInt8) (m : Fin n) (view : FrameView)
  | accept (port : UInt8) (queueid : UInt16) (m : Option (Fin n))
  | reject (port : UInt8) (m : Option (Fin n))
  | print (text : String)
deriving DecidableEq

/-- The memory the lcores share, and the two parties outside the switch. `pick i` is what the
`i`-th `rte_mempool_get` finds, `txRoom i` the free descriptors at the `i`-th burst. -/
structure World (n : Nat) where
  mbuf : Fin n → Mbuf n
  pooled : Fin n → Bool
  gets : Nat
  pick : Nat → Option (Fin n)
  bursts : Nat
  txRoom : Nat → Nat
  inFlight : List (Option (Fin n))
  log : List (Event n)

variable {n : Nat}

def World.emit (w : World n) (e : Event n) : World n :=
  { w with log := w.log ++ [e] }

def World.modify (w : World n) (m : Fin n) (f : Mbuf n → Mbuf n) : World n :=
  { w with mbuf := Function.update w.mbuf m (f (w.mbuf m)) }

def World.modifyPkt (w : World n) (m : Fin n) (f : Pktmbuf n → Pktmbuf n) : World n :=
  w.modify m fun b => { b with pkt := f b.pkt }

def World.next (w : World n) (m : Fin n) : Option (Fin n) :=
  (w.mbuf m).pkt.next

/-- Byte `i` of the segment, counted from `m->pkt.data`. -/
def World.byte (w : World n) (m : Fin n) (i : Nat) : UInt8 :=
  (w.mbuf (w.mbuf m).bufAddr).room ((w.mbuf m).pkt.data + i)

def World.view (w : World n) (m : Fin n) : FrameView where
  data := (w.mbuf m).pkt.data
  dataLen := (w.mbuf m).pkt.dataLen
  pktLen := (w.mbuf m).pkt.pktLen
  bytes := (List.range (w.mbuf m).pkt.dataLen.toNat).map (w.byte m)

/-- `*((uint32_t *) m->pkt.data)` on a little-endian machine. -/
def World.read32 (w : World n) (m : Fin n) : UInt32 :=
  .ofNat (Nat.ofDigits 256 ((List.range 4).map fun i => (w.byte m i).toNat))

def World.write32 (w : World n) (m : Fin n) (x : UInt32) : World n :=
  let base := (w.mbuf m).pkt.data
  w.modify (w.mbuf m).bufAddr fun b =>
    { b with room := fun j =>
        if base ≤ j ∧ j < base + 4 then .ofNat (x.toNat / 256 ^ (j - base)) else b.room j }

/-- The pool gives an mbuf only while it holds one of its own. -/
def rteMempoolGet (w : World n) (mp : Pool) : Option (Fin n) × World n :=
  let counted := { w with gets := w.gets + 1 }
  match w.pick w.gets with
  | none => (none, counted.emit (.getFailed mp))
  | some m =>
    if w.pooled m = true ∧ (w.mbuf m).pool = mp then
      (some m, { counted with pooled := Function.update w.pooled m false }.emit (.get m))
    else (none, counted.emit (.getFailed mp))

def rteMempoolPut (w : World n) (m : Fin n) : World n :=
  { w with pooled := Function.update w.pooled m true }.emit (.put m)

def rteMbufRefcntSet (w : World n) (m : Fin n) (newValue : UInt16) : World n :=
  w.modify m fun b => { b with refcnt := newValue }

/-- `value` is an `int16_t` in two's complement; the sum is taken modulo `2^16`. -/
def rteMbufRefcntUpdate (w : World n) (m : Fin n) (value : UInt16) : UInt16 × World n :=
  ((w.mbuf m).refcnt + value, rteMbufRefcntSet w m ((w.mbuf m).refcnt + value))

def rteMbufRawAlloc (w : World n) (mp : Pool) : Option (Fin n) × World n :=
  match rteMempoolGet w mp with
  | (none, w) => (none, w)
  | (some m, w) => (some m, rteMbufRefcntSet w m 1)

def rteMbufRawFree (w : World n) (m : Fin n) : World n :=
  rteMempoolPut w m

def bufOfs (bufLen : UInt16) : Nat :=
  (if pktmbufHeadroom ≤ bufLen then pktmbufHeadroom else bufLen).toNat

/-- The object initialiser of all three pools; `mbuf` starts out zeroed. -/
def rtePktmbufInit (mp : Pool) (m : Fin n) : Mbuf n where
  pool := mp
  bufAddr := m
  bufLen := mp.dataRoom
  refcnt := 0
  olFlags := 0
  pkt := { next := none, data := bufOfs mp.dataRoom, dataLen := 0, nbSegs := 1, inPort := 0xff,
           pktLen := 0, vlanMacip := 0, hash := 0 }
  room := fun _ => 0

def initEal (pools : Fin n → Pool) (pick : Nat → Option (Fin n)) (txRoom : Nat → Nat) : World n where
  mbuf := fun m => rtePktmbufInit (pools m) m
  pooled := fun _ => true
  gets := 0
  pick := pick
  bursts := 0
  txRoom := txRoom
  inFlight := []
  log := []

def rtePktmbufReset (w : World n) (m : Fin n) : World n :=
  w.modify m fun b =>
    { b with
      olFlags := 0
      pkt := { b.pkt with next := none, pktLen := 0, vlanMacip := 0, nbSegs := 1,
                          inPort := 0xff, data := bufOfs b.bufLen, dataLen := 0 } }

def rtePktmbufAlloc (w : World n) (mp : Pool) : Option (Fin n) × World n :=
  match rteMbufRawAlloc w mp with
  | (none, w) => (none, w)
  | (some m, w) => (some m, rtePktmbufReset w m)

def rtePktmbufAttach (w : World n) (mi md : Fin n) : World n :=
  let w := (rteMbufRefcntUpdate w md 1).2
  w.modify mi fun b =>
    let d := w.mbuf md
    { b with
      bufAddr := d.bufAddr
      bufLen := d.bufLen
      pkt := { d.pkt with next := none, pktLen := d.pkt.dataLen.toUInt32, nbSegs := 1 } }

def rtePktmbufDetach (w : World n) (m : Fin n) : World n :=
  w.modify m fun b =>
    { b with
      bufAddr := m
      bufLen := b.pool.dataRoom
      pkt := { b.pkt with data := bufOfs b.pool.dataRoom, dataLen := 0 } }

/-- The part of `rte_pktmbuf_free_seg` that runs for the last reference. -/
def releaseSeg (w : World n) (m : Fin n) : World n :=
  let md := (w.mbuf m).bufAddr
  let w := rteMbufRefcntSet w m 0
  if md ≠ m then
    let (left, w) := rteMbufRefcntUpdate (rtePktmbufDetach w m) md (-1)
    rteMbufRawFree (if left = 0 then rteMbufRawFree w md else w) m
  else rteMbufRawFree w m

def rtePktmbufFreeSeg (w : World n) (m : Fin n) : World n :=
  let w := w.emit (.freeSeg m (w.pooled m))
  if (w.mbuf m).refcnt = 1 then releaseSeg w m
  else
    let (left, w) := rteMbufRefcntUpdate w m (-1)
    if left = 0 then releaseSeg w m else w

/-- The loop visits at most `n` mbufs: a chain that ends in NULL has no more of them. -/
def rtePktmbufFree (w : World n) (m : Option (Fin n)) : World n :=
  LinkedChain.walk World.next rtePktmbufFreeSeg n (w.emit (.free m)) m

/-- The segment loop of `rte_pktmbuf_clone`: `prev` is the mbuf whose `pkt.next` the C pointer
`prev` designates, and the first component is the last value of `mi`. -/
def cloneLoop (mp : Pool) :
    Nat → World n → Fin n → Fin n → Fin n → UInt8 → Option (Fin n) × Fin n × UInt8 × World n
  | 0, w, mi, prev, _, nseg => (some mi, prev, nseg, w)
  | fuel + 1, w, mi, prev, md, nseg =>
    let w := rtePktmbufAttach w mi md
    let w := w.modifyPkt prev fun p => { p with next := some mi }
    match w.next md with
    | none => (some mi, mi, nseg + 1, w)
    | some md =>
      match rtePktmbufAlloc w mp with
      | (none, w) => (none, mi, nseg + 1, w)
      | (some mi', w) => cloneLoop mp fuel w mi' mi md (nseg + 1)

def rtePktmbufClone (w : World n) (md : Fin n) (mp : Pool) : Option (Fin n) × World n :=
  match rtePktmbufAlloc w mp with
  | (none, w) => (none, w)
  | (some mc, w) =>
    let pktlen := (w.mbuf md).pkt.pktLen
    let (mi, prev, nseg, w) := cloneLoop mp n w mc mc md 0
    let w := w.modifyPkt prev fun p => { p with next := none }
    let w := w.modifyPkt mc fun p => { p with nbSegs := nseg, pktLen := pktlen }
    match mi with
    | none => (none, rtePktmbufFree w (some mc))
    | some _ => (some mc, w)

def rtePktmbufHeadroom (w : World n) (m : Fin n) : UInt16 :=
  .ofNat (w.mbuf m).pkt.data

/-- The new data pointer, or NULL and an unchanged mbuf when the headroom is too small. -/
def rtePktmbufPrepend (w : World n) (m : Fin n) (len : UInt16) : Option Nat × World n :=
  if rtePktmbufHeadroom w m < len then (none, w)
  else
    let w := w.modifyPkt m fun p =>
      { p with data := p.data - len.toNat, dataLen := p.dataLen + len,
               pktLen := p.pktLen + len.toUInt32 }
    (some (w.mbuf m).pkt.data, w)

def rtePktmbufAdj (w : World n) (m : Fin n) (len : UInt16) : Option Nat × World n :=
  if (w.mbuf m).pkt.dataLen < len then (none, w)
  else
    let w := w.modifyPkt m fun p =>
      { p with dataLen := p.dataLen - len, data := p.data + len.toNat,
               pktLen := p.pktLen - len.toUInt32 }
    (some (w.mbuf m).pkt.data, w)

/-- What a driver leaves in the first mbuf of a received chain: a direct segment with the default
headroom, taken from its pool with one reference. -/
def rxSeg (w : World n) (m : Fin n) (bytes : List UInt8) (pkt : Pktmbuf n) : World n :=
  ({ w with pooled := Function.update w.pooled m false }.emit (.get m)).modify m fun b =>
    { b with
      refcnt := 1
      olFlags := 0
      pkt := { pkt with data := bufOfs b.bufLen, dataLen := .ofNat bytes.length }
      room := fun j => if bufOfs b.bufLen ≤ j then bytes.getD (j - bufOfs b.bufLen) 0 else b.room j }

/-- A frame received on `inPort`, spread over the given mbufs of the packet pool. -/
def rxChain (w : World n) (inPort : UInt8) : List (Fin n × List UInt8) → World n
  | [] => w
  | (m, bytes) :: rest =>
    rxSeg (rxChain w inPort rest) m bytes
      { next := rest.head?.map Prod.fst, data := 0, dataLen := 0
        nbSegs := .ofNat (rest.length + 1), inPort := inPort
        pktLen := .ofNat (bytes ++ rest.flatMap Prod.snd).length, vlanMacip := 0, hash := 0 }

end LearningSwitch
