import LearningSwitch.TxHistory

namespace LearningSwitch

variable {n : Nat}

/-- The fields that `pkt_duplicate` sets in the new header `hdr`. -/
def linkHeader (w : World n) (hdr pkt : Fin n) : World n :=
  let src := w.mbuf pkt
  w.modify hdr fun b =>
    { b with
      olFlags := src.olFlags
      pkt := { b.pkt with
        next := some pkt
        pktLen := (b.pkt.dataLen.toUInt32 + src.pkt.pktLen).toUInt16.toUInt32
        nbSegs := src.pkt.nbSegs + 1
        inPort := src.pkt.inPort
        vlanMacip := src.pkt.vlanMacip
        hash := src.pkt.hash } }

def pktDuplicate (w : World n) (pkt : Fin n) (useClone : UInt32) : Option (Fin n) × World n :=
  match rtePktmbufAlloc w .header with
  | (none, w) => (none, w)
  | (some hdr, w) =>
    if useClone ≠ 0 then
      match rtePktmbufClone w pkt .clone with
      | (none, w) => (none, rtePktmbufFree w (some hdr))
      | (some pkt, w) => (some hdr, linkHeader w hdr pkt)
    else (some hdr, linkHeader w hdr pkt)

def useClone : UInt32 := 0

def floodOne (m : Fin n) (s : Lcore n) (port : UInt8) : Except Fault (Lcore n) :=
  match pktDuplicate s.world m useClone with
  | (some mc, w) => pktSendSingle { s with world := w } mc port
  | (none, w) =>
    if useClone = 0 then .ok { s with world := rtePktmbufFree w (some m) }
    else .ok { s with world := w }

def pktFlood (s : Lcore n) (m : Fin n) : Except Fault (Lcore n) :=
  StepRun.run (floodOne m) s [0, 1]

def componentOutput (s : Lcore n) (m : Fin n) : Except Fault (Lcore n) :=
  let outputPort := s.world.read32 m
  let s := { s with world := (rtePktmbufAdj s.world m 4).2 }
  if outputPort = floodPort then pktFlood s m
  else if outputPort = dropPacket then .ok { s with world := rtePktmbufFree s.world (some m) }
  else pktSendSingle s m outputPort.toUInt8

/-- The memory after a successful allocation of `hdr` and the header setup for `pkt`. -/
def duplicated (w : World n) (hdr pkt : Fin n) : World n :=
  let w := { w with gets := w.gets + 1, pooled := Function.update w.pooled hdr false }.emit (.get hdr)
  linkHeader (rtePktmbufReset (rteMbufRefcntSet w hdr 1) hdr) hdr pkt

def getFailedWorld (w : World n) (mp : Pool) : World n :=
  { w with gets := w.gets + 1 }.emit (.getFailed mp)

theorem rteMempoolGet_cases (w : World n) (mp : Pool) :
    rteMempoolGet w mp = (none, getFailedWorld w mp) ∨
      ∃ m, w.pick w.gets = some m ∧ w.pooled m = true ∧ (w.mbuf m).pool = mp ∧
        rteMempoolGet w mp = (some m, { w with
          gets := w.gets + 1, pooled := Function.update w.pooled m false }.emit (.get m)) := by
  unfold rteMempoolGet
  cases hpick : w.pick w.gets with
  | none => exact Or.inl rfl
  | some m =>
    by_cases h : w.pooled m = true ∧ (w.mbuf m).pool = mp
    · exact Or.inr ⟨m, rfl, h.1, h.2, by simp [h]⟩
    · exact Or.inl (by simp [h, getFailedWorld])

theorem not_mem_of_inUse {w : World n} {x : Fin n} {own : List (Fin n)}
    (hx : w.pooled x = false) (hown : ∀ k ∈ own, w.pooled k = true) : x ∉ own := by
  intro hmem
  rw [hown x hmem] at hx
  cases hx

theorem ne_of_inUse {w : World n} {x y : Fin n} (hx : w.pooled x = false)
    (hy : w.pooled y = true) : x ≠ y := by
  have hout : x ∉ [y] := not_mem_of_inUse hx (by simpa using hy)
  simpa using hout

/-- Without cloning, a duplicate is one header from the pool linked to the packet, or NULL when
the pool gives none. -/
theorem pktDuplicate_cases (w : World n) (pkt : Fin n) :
    pktDuplicate w pkt useClone = (none, getFailedWorld w .header) ∨
      ∃ hdr, w.pick w.gets = some hdr ∧ w.pooled hdr = true ∧ (w.mbuf hdr).pool = .header ∧
        pktDuplicate w pkt useClone = (some hdr, duplicated w hdr pkt) := by
  rcases rteMempoolGet_cases w .header with h | ⟨hdr, hpick, hpooled, hpool, h⟩
  · left
    simp [pktDuplicate, rtePktmbufAlloc, rteMbufRawAlloc, h]
  · right
    refine ⟨hdr, hpick, hpooled, hpool, ?_⟩
    simp [pktDuplicate, rtePktmbufAlloc, rteMbufRawAlloc, h, useClone, duplicated]

theorem pktDuplicate_ok {w : World n} {hdr : Fin n} (pkt : Fin n)
    (hpick : w.pick w.gets = some hdr) (hpooled : w.pooled hdr = true)
    (hpool : (w.mbuf hdr).pool = .header) :
    pktDuplicate w pkt useClone = (some hdr, duplicated w hdr pkt) := by
  simp [pktDuplicate, rtePktmbufAlloc, rteMbufRawAlloc, rteMempoolGet, hpick, hpooled, hpool,
    useClone, duplicated]

@[simp] theorem duplicated_log (w : World n) (hdr pkt : Fin n) :
    (duplicated w hdr pkt).log = w.log ++ [.get hdr] := rfl

@[simp] theorem duplicated_pooled (w : World n) (hdr pkt : Fin n) :
    (duplicated w hdr pkt).pooled = Function.update w.pooled hdr false := rfl

theorem duplicated_mbuf_ne (w : World n) (hdr pkt : Fin n) {k : Fin n} (h : k ≠ hdr) :
    (duplicated w hdr pkt).mbuf k = w.mbuf k := by
  simp [duplicated, linkHeader, rtePktmbufReset, rteMbufRefcntSet, World.modify, World.emit, h]

theorem duplicated_header (w : World n) (hdr pkt : Fin n) :
    ((duplicated w hdr pkt).mbuf hdr).pool = (w.mbuf hdr).pool ∧
      ((duplicated w hdr pkt).mbuf hdr).bufAddr = (w.mbuf hdr).bufAddr ∧
      ((duplicated w hdr pkt).mbuf hdr).refcnt = 1 := by
  simp [duplicated, linkHeader, rtePktmbufReset, rteMbufRefcntSet, World.emit, World.modify]

theorem duplicated_next_self (w : World n) (hdr pkt : Fin n) :
    (duplicated w hdr pkt).next hdr = some pkt := by
  simp [duplicated, linkHeader, World.next]

theorem duplicated_next_ne (w : World n) (hdr pkt : Fin n) {k : Fin n} (h : k ≠ hdr) :
    (duplicated w hdr pkt).next k = w.next k := by
  rw [World.next, duplicated_mbuf_ne w hdr pkt h, World.next]

end LearningSwitch
