import Mathlib.Tactic.Ring
import LearningSwitch.Mbuf

namespace LearningSwitch

variable {n : Nat}

/-- `rte_pktmbuf_prepend(m, 4)` followed by a store of `x` at the new `m->pkt.data`, as
`Classify`, its forbidding action and `component_route` do it. -/
def pushHeader (w : World n) (m : Fin n) (x : UInt32) : World n :=
  (rtePktmbufPrepend w m 4).2.write32 m x

/-- The segment lies inside a data room whose length is a `uint16_t`. -/
def World.WellFormed (w : World n) (m : Fin n) : Prop :=
  (w.mbuf m).pkt.data + (w.mbuf m).pkt.dataLen.toNat ≤ (w.mbuf m).bufLen.toNat

/-- The two worlds differ in the four bytes before the data of `m` only. -/
structure World.SameButHeadroom (w : World n) (m : Fin n) (w' : World n) : Prop where
  mbuf : ∀ k, ∃ room, w'.mbuf k = { w.mbuf k with room := room } ∧ ∀ j,
    ¬ (k = (w.mbuf m).bufAddr ∧ (w.mbuf m).pkt.data - 4 ≤ j ∧ j < (w.mbuf m).pkt.data) →
      room j = (w.mbuf k).room j
  pooled : w'.pooled = w.pooled
  gets : w'.gets = w.gets
  pick : w'.pick = w.pick
  bursts : w'.bursts = w.bursts
  txRoom : w'.txRoom = w.txRoom
  inFlight : w'.inFlight = w.inFlight
  log : w'.log = w.log

@[simp] theorem modify_mbuf_self (w : World n) (m : Fin n) (f : Mbuf n → Mbuf n) :
    (w.modify m f).mbuf m = f (w.mbuf m) := by
  simp [World.modify]

theorem modify_mbuf_ne (w : World n) {m k : Fin n} (f : Mbuf n → Mbuf n) (h : k ≠ m) :
    (w.modify m f).mbuf k = w.mbuf k := by
  simp [World.modify, h]

@[simp] theorem modifyPkt_pkt_self (w : World n) (m : Fin n) (f : Pktmbuf n → Pktmbuf n) :
    ((w.modifyPkt m f).mbuf m).pkt = f (w.mbuf m).pkt := by
  simp [World.modifyPkt]

theorem modifyPkt_mbuf (w : World n) (m k : Fin n) (f : Pktmbuf n → Pktmbuf n) :
    (w.modifyPkt m f).mbuf k =
      if k = m then { w.mbuf k with pkt := f (w.mbuf k).pkt } else w.mbuf k := by
  by_cases h : k = m
  · subst h; simp [World.modifyPkt]
  · simp [World.modifyPkt, modify_mbuf_ne, h]

@[simp] theorem modifyPkt_bufAddr (w : World n) (m k : Fin n) (f : Pktmbuf n → Pktmbuf n) :
    ((w.modifyPkt m f).mbuf k).bufAddr = (w.mbuf k).bufAddr := by
  rw [modifyPkt_mbuf]; split <;> rfl

@[simp] theorem modifyPkt_room (w : World n) (m k : Fin n) (f : Pktmbuf n → Pktmbuf n) :
    ((w.modifyPkt m f).mbuf k).room = (w.mbuf k).room := by
  rw [modifyPkt_mbuf]; split <;> rfl

theorem modifyPkt_byte (w : World n) (m : Fin n) (f : Pktmbuf n → Pktmbuf n) (i : Nat) :
    (w.modifyPkt m f).byte m i =
      (w.mbuf (w.mbuf m).bufAddr).room ((f (w.mbuf m).pkt).data + i) := by
  simp [World.byte]

theorem write32_mbuf (w : World n) (m : Fin n) (x : UInt32) (k : Fin n) :
    ∃ room, (w.write32 m x).mbuf k = { w.mbuf k with room := room } ∧ ∀ j,
      ¬ (k = (w.mbuf m).bufAddr ∧ (w.mbuf m).pkt.data ≤ j ∧ j < (w.mbuf m).pkt.data + 4) →
        room j = (w.mbuf k).room j := by
  by_cases h : k = (w.mbuf m).bufAddr
  · subst h
    refine ⟨_, by rw [World.write32, modify_mbuf_self], fun j hj => ?_⟩
    exact if_neg fun hin => hj ⟨rfl, hin⟩
  · exact ⟨(w.mbuf k).room, by rw [World.write32, modify_mbuf_ne _ _ h], fun _ _ => rfl⟩

@[simp] theorem write32_pkt (w : World n) (m : Fin n) (x : UInt32) (k : Fin n) :
    ((w.write32 m x).mbuf k).pkt = (w.mbuf k).pkt := by
  obtain ⟨room, h, _⟩ := write32_mbuf w m x k
  rw [h]

@[simp] theorem write32_bufAddr (w : World n) (m : Fin n) (x : UInt32) (k : Fin n) :
    ((w.write32 m x).mbuf k).bufAddr = (w.mbuf k).bufAddr := by
  obtain ⟨room, h, _⟩ := write32_mbuf w m x k
  rw [h]

theorem write32_byte (w : World n) (m : Fin n) (x : UInt32) (i : Nat) :
    (w.write32 m x).byte m i = if i < 4 then .ofNat (x.toNat / 256 ^ i) else w.byte m i := by
  have hroom : ((w.write32 m x).mbuf (w.mbuf m).bufAddr).room = fun j =>
      if (w.mbuf m).pkt.data ≤ j ∧ j < (w.mbuf m).pkt.data + 4 then
        .ofNat (x.toNat / 256 ^ (j - (w.mbuf m).pkt.data))
      else (w.mbuf (w.mbuf m).bufAddr).room j := by
    rw [World.write32, modify_mbuf_self]
  simp [World.byte, hroom]

theorem read32_write32 (w : World n) (m : Fin n) (x : UInt32) :
    (w.write32 m x).read32 m = x := by
  have hx : x.toNat < 4294967296 := x.toNat_lt
  have hd : Nat.ofDigits 256 ((List.range 4).map fun i => ((w.write32 m x).byte m i).toNat)
      = x.toNat := by
    simp only [write32_byte, List.range, List.range.loop, List.map_cons, List.map_nil,
      Nat.ofDigits_cons, Nat.ofDigits_nil, UInt8.toNat_ofNat', Nat.reducePow, Nat.reduceLT,
      if_true]
    omega
  rw [World.read32, hd]
  simp

theorem World.SameButHeadroom.pkt {w w' : World n} {m : Fin n} (h : w.SameButHeadroom m w')
    (k : Fin n) : (w'.mbuf k).pkt = (w.mbuf k).pkt := by
  obtain ⟨room, hk, _⟩ := h.mbuf k
  rw [hk]

theorem World.SameButHeadroom.bufAddr {w w' : World n} {m : Fin n} (h : w.SameButHeadroom m w')
    (k : Fin n) : (w'.mbuf k).bufAddr = (w.mbuf k).bufAddr := by
  obtain ⟨room, hk, _⟩ := h.mbuf k
  rw [hk]

theorem World.SameButHeadroom.byte {w w' : World n} {m : Fin n} (h : w.SameButHeadroom m w')
    (i : Nat) : w'.byte m i = w.byte m i := by
  obtain ⟨room, hk, hroom⟩ := h.mbuf (w.mbuf m).bufAddr
  rw [World.byte, World.byte, h.bufAddr, h.pkt, hk]
  exact hroom _ (by omega)

theorem World.SameButHeadroom.wellFormed {w w' : World n} {m : Fin n} (h : w.SameButHeadroom m w')
    (hw : w.WellFormed m) : w'.WellFormed m := by
  obtain ⟨room, hm, _⟩ := h.mbuf m
  simpa only [World.WellFormed, hm] using hw

theorem World.SameButHeadroom.view {w w' : World n} {m : Fin n} (h : w.SameButHeadroom m w') :
    w'.view m = w.view m := by
  have hbytes : w'.byte m = w.byte m := funext h.byte
  simp only [World.view, h.pkt m, hbytes]

theorem World.SameButHeadroom.trans {u v w : World n} {m : Fin n} (h : u.SameButHeadroom m v)
    (h' : v.SameButHeadroom m w) : u.SameButHeadroom m w where
  mbuf k := by
    obtain ⟨room, hk, hroom⟩ := h.mbuf k
    obtain ⟨room', hk', hroom'⟩ := h'.mbuf k
    refine ⟨room', by rw [hk', hk], fun j hj => ?_⟩
    rw [h.bufAddr, h.pkt] at hroom'
    rw [hroom' j hj, hk]
    exact hroom j hj
  pooled := h'.pooled.trans h.pooled
  gets := h'.gets.trans h.gets
  pick := h'.pick.trans h.pick
  bursts := h'.bursts.trans h.bursts
  txRoom := h'.txRoom.trans h.txRoom
  inFlight := h'.inFlight.trans h.inFlight
  log := h'.log.trans h.log

theorem headroom_not_lt {w : World n} {m : Fin n} (hw : w.WellFormed m)
    (hd : 4 ≤ (w.mbuf m).pkt.data) : ¬rtePktmbufHeadroom w m < 4 := by
  have hb := (w.mbuf m).bufLen.toNat_lt
  have hdata : (w.mbuf m).pkt.data < 2 ^ 16 := by unfold World.WellFormed at hw; omega
  rw [UInt16.lt_iff_toNat_lt, rtePktmbufHeadroom, UInt16.toNat_ofNat', Nat.mod_eq_of_lt hdata]
  simpa using hd

theorem prepend_of_headroom {w : World n} {m : Fin n} (hd : 4 ≤ rtePktmbufHeadroom w m) :
    (rtePktmbufPrepend w m 4).2 = w.modifyPkt m fun p =>
      { p with data := p.data - 4, dataLen := p.dataLen + 4, pktLen := p.pktLen + 4 } := by
  rw [rtePktmbufPrepend, if_neg (UInt16.not_lt.mpr hd)]
  rfl

theorem prepend_four {w : World n} {m : Fin n} (hw : w.WellFormed m)
    (hd : 4 ≤ (w.mbuf m).pkt.data) :
    (rtePktmbufPrepend w m 4).2 = w.modifyPkt m fun p =>
      { p with data := p.data - 4, dataLen := p.dataLen + 4, pktLen := p.pktLen + 4 } :=
  prepend_of_headroom (UInt16.not_lt.mp (headroom_not_lt hw hd))

theorem adj_four {w : World n} {m : Fin n} (hl : 4 ≤ (w.mbuf m).pkt.dataLen.toNat) :
    (rtePktmbufAdj w m 4).2 = w.modifyPkt m fun p =>
      { p with dataLen := p.dataLen - 4, data := p.data + 4, pktLen := p.pktLen - 4 } := by
  have h : ¬(w.mbuf m).pkt.dataLen < 4 := by
    rw [UInt16.lt_iff_toNat_lt]
    simpa using hl
  rw [rtePktmbufAdj, if_neg h]
  rfl

theorem pushHeader_read32 (w : World n) (m : Fin n) (x : UInt32) :
    (pushHeader w m x).read32 m = x :=
  read32_write32 _ m x

theorem pushHeader_byte {w : World n} {m : Fin n} (hd : 4 ≤ rtePktmbufHeadroom w m) (x : UInt32)
    (i : Nat) : (pushHeader w m x).byte m i =
      if i < 4 then .ofNat (x.toNat / 256 ^ i) else w.byte m (i - 4) := by
  have hdata : 4 ≤ (w.mbuf m).pkt.data := by
    have h16 := UInt16.le_iff_toNat_le.mp hd
    rw [rtePktmbufHeadroom, UInt16.toNat_ofNat'] at h16
    exact h16.trans (Nat.mod_le _ _)
  rw [pushHeader, prepend_of_headroom hd, write32_byte, modifyPkt_byte]
  split
  next => rfl
  next hi =>
    rw [World.byte]
    congr 1
    dsimp only
    omega

theorem pushHeader_dataLen_eq {w : World n} {m : Fin n} (hd : 4 ≤ rtePktmbufHeadroom w m)
    (x : UInt32) : ((pushHeader w m x).mbuf m).pkt.dataLen = (w.mbuf m).pkt.dataLen + 4 := by
  rw [pushHeader, write32_pkt, prepend_of_headroom hd, modifyPkt_pkt_self]

theorem adj_byte (w : World n) (m : Fin n) (i : Nat) :
    (rtePktmbufAdj w m 4).2.byte m i =
      if (w.mbuf m).pkt.dataLen < 4 then w.byte m i else w.byte m (4 + i) := by
  rw [rtePktmbufAdj]
  split
  next => rfl
  next =>
    dsimp only
    rw [modifyPkt_byte, World.byte]
    congr 1
    exact Nat.add_assoc _ _ _

theorem pushHeader_pkt {w : World n} {m : Fin n} (hw : w.WellFormed m)
    (hd : 4 ≤ (w.mbuf m).pkt.data) (x : UInt32) :
    ((pushHeader w m x).mbuf m).pkt =
      { (w.mbuf m).pkt with
        data := (w.mbuf m).pkt.data - 4
        dataLen := (w.mbuf m).pkt.dataLen + 4
        pktLen := (w.mbuf m).pkt.pktLen + 4 } := by
  rw [pushHeader, write32_pkt, prepend_four hw hd, modifyPkt_pkt_self]

/-- The 16-bit length does not wrap when a header is pushed into the headroom. -/
theorem pushHeader_dataLen {w : World n} {m : Fin n} (hw : w.WellFormed m)
    (hd : 4 ≤ (w.mbuf m).pkt.data) (x : UInt32) :
    4 ≤ ((pushHeader w m x).mbuf m).pkt.dataLen.toNat := by
  have hb := (w.mbuf m).bufLen.toNat_lt
  have hlen : (w.mbuf m).pkt.dataLen.toNat + 4 < 2 ^ 16 := by unfold World.WellFormed at hw; omega
  rw [pushHeader_pkt hw hd, UInt16.toNat_add]
  simp only [UInt16.reduceToNat, Nat.mod_eq_of_lt hlen]
  omega

/-- Stripping a pushed header gives the frame back: same metadata, same bytes. -/
theorem adj_pushHeader {w : World n} {m : Fin n} (hw : w.WellFormed m)
    (hd : 4 ≤ (w.mbuf m).pkt.data) (x : UInt32) :
    w.SameButHeadroom m (rtePktmbufAdj (pushHeader w m x) m 4).2 := by
  have hadj : (rtePktmbufAdj (pushHeader w m x) m 4).2 = (pushHeader w m x).modifyPkt m fun p =>
      { p with dataLen := p.dataLen - 4, data := p.data + 4, pktLen := p.pktLen - 4 } :=
    adj_four (pushHeader_dataLen hw hd x)
  rw [pushHeader, prepend_four hw hd] at hadj
  rw [pushHeader, prepend_four hw hd, hadj]
  generalize hu : (w.modifyPkt m fun p =>
    { p with data := p.data - 4, dataLen := p.dataLen + 4, pktLen := p.pktLen + 4 }) = u
  refine ⟨fun k => ?_, by rw [← hu]; rfl, by rw [← hu]; rfl, by rw [← hu]; rfl, by rw [← hu]; rfl,
    by rw [← hu]; rfl, by rw [← hu]; rfl, by rw [← hu]; rfl⟩
  obtain ⟨room, hk, hroom⟩ := write32_mbuf u m x k
  subst hu
  rw [modifyPkt_bufAddr, modifyPkt_pkt_self, modifyPkt_room] at hroom
  refine ⟨room, ?_, fun j hj => hroom j fun hin => hj ⟨hin.1, hin.2.1, ?_⟩⟩
  · rw [modifyPkt_mbuf, hk, modifyPkt_mbuf]
    split
    next h =>
      subst h
      simp [Nat.sub_add_cancel hd]
    next => rfl
  · have hend := hin.2.2
    dsimp only at hend
    omega

end LearningSwitch
