import LearningSwitch.PktClone

namespace LearningSwitch

open LinkedChain

variable {n : Nat}

/-- The header `hdr` stands for the packet `pkt`, and the packet itself is as it was. -/
structure World.Duplicates (w : World n) (pkt : Fin n) (segs : List (Fin n)) (w' : World n)
    (hdr : Fin n) : Prop where
  packet : ∃ segs', w'.Packet hdr segs' ∧ w'.chainBytes segs' = w.chainBytes segs
  inPort : (w'.mbuf hdr).pkt.inPort = (w.mbuf pkt).pkt.inPort
  vlanMacip : (w'.mbuf hdr).pkt.vlanMacip = (w.mbuf pkt).pkt.vlanMacip
  hash : (w'.mbuf hdr).pkt.hash = (w.mbuf pkt).pkt.hash
  olFlags : (w'.mbuf hdr).olFlags = (w.mbuf pkt).olFlags
  source : ∀ k ∈ segs, (w'.mbuf k).pkt = (w.mbuf k).pkt ∧ w'.byte k = w.byte k

theorem linkHeader_countsOff (w : World n) (hdr pkt : Fin n) :
    w.CountsOff [hdr] (linkHeader w hdr pkt) := by
  unfold linkHeader
  exact World.CountsOff.modify (by simp) fun _ => rfl

theorem linkHeader_mbuf (w : World n) (hdr pkt : Fin n) :
    (linkHeader w hdr pkt).mbuf hdr = { w.mbuf hdr with
      olFlags := (w.mbuf pkt).olFlags
      pkt := { (w.mbuf hdr).pkt with
        next := some pkt
        pktLen := ((w.mbuf hdr).pkt.dataLen.toUInt32 + (w.mbuf pkt).pkt.pktLen).toUInt16.toUInt32
        nbSegs := (w.mbuf pkt).pkt.nbSegs + 1
        inPort := (w.mbuf pkt).pkt.inPort
        vlanMacip := (w.mbuf pkt).pkt.vlanMacip
        hash := (w.mbuf pkt).pkt.hash } } := by
  rw [linkHeader, modify_mbuf_self]

theorem linkHeader_nbSegs (w : World n) (hdr pkt : Fin n) :
    ((linkHeader w hdr pkt).mbuf hdr).pkt.nbSegs.toNat =
      ((w.mbuf pkt).pkt.nbSegs.toNat + 1) % 256 := by
  rw [linkHeader_mbuf]
  exact UInt8.toNat_add _ _

theorem linkHeader_pktLen {w : World n} {hdr : Fin n} (pkt : Fin n)
    (hempty : (w.mbuf hdr).pkt.dataLen = 0) :
    ((linkHeader w hdr pkt).mbuf hdr).pkt.pktLen.toNat =
      (w.mbuf pkt).pkt.pktLen.toNat % 65536 := by
  rw [linkHeader_mbuf, hempty]
  show ((0 : UInt32) + (w.mbuf pkt).pkt.pktLen).toUInt16.toUInt32.toNat = _
  rw [UInt32.zero_add, UInt16.toNat_toUInt32, UInt32.toNat_toUInt16]

theorem outside_singleton {x : Fin n} {segs : List (Fin n)} (hx : x ∉ segs) :
    ∀ k ∈ segs, k ∉ [x] := by
  intro k hk hmem
  rw [List.mem_singleton] at hmem
  exact hx (hmem ▸ hk)

section

variable {w : World n} {hdr pkt : Fin n} {segs : List (Fin n)}

theorem linkHeader_chain (hp : w.Packet pkt segs) (hout : hdr ∉ segs) :
    Chain (linkHeader w hdr pkt).next (some hdr) (hdr :: segs) := by
  have hnext : (linkHeader w hdr pkt).next hdr = some pkt := by
    rw [World.next, linkHeader_mbuf]
  refine ⟨rfl, ?_⟩
  rw [hnext]
  exact (linkHeader_countsOff w hdr pkt).chain (outside_singleton hout) hp.chain

theorem linkHeader_bytes (hout : hdr ∉ segs) (hempty : (w.mbuf hdr).pkt.dataLen = 0) :
    (linkHeader w hdr pkt).chainBytes (hdr :: segs) = w.chainBytes segs := by
  have hnone : ((linkHeader w hdr pkt).view hdr).bytes = [] := by
    rw [World.view, linkHeader_mbuf, hempty]
    rfl
  have hrest := (linkHeader_countsOff w hdr pkt).bytes (outside_singleton hout)
  rw [← hrest, World.chainBytes, World.chainBytes, List.flatMap_cons, hnone, List.nil_append]

theorem linkHeader_dataLens (hout : hdr ∉ segs) (hempty : (w.mbuf hdr).pkt.dataLen = 0) :
    ((hdr :: segs).map fun k => ((linkHeader w hdr pkt).mbuf k).pkt.dataLen.toNat).sum =
      (segs.map fun k => (w.mbuf k).pkt.dataLen.toNat).sum := by
  have hzero : ((linkHeader w hdr pkt).mbuf hdr).pkt.dataLen.toNat = 0 := by
    rw [linkHeader_mbuf, hempty]
    rfl
  rw [List.map_cons, List.sum_cons, hzero, Nat.zero_add]
  refine congrArg List.sum (List.map_congr_left fun k hk => ?_)
  rw [(linkHeader_countsOff w hdr pkt).pkt (outside_singleton hout k hk)]

/-- The narrow counters of the new header are right up to the limits of their casts only. -/
theorem linkHeader_packet_iff (hp : w.Packet pkt segs) (hout : hdr ∉ segs)
    (huse : w.pooled hdr = false) (hempty : (w.mbuf hdr).pkt.dataLen = 0) :
    (linkHeader w hdr pkt).Packet hdr (hdr :: segs) ↔
      (w.mbuf pkt).pkt.pktLen.toNat < 65536 ∧ (w.mbuf pkt).pkt.nbSegs.toNat < 255 := by
  have hnb := linkHeader_nbSegs w hdr pkt
  have hlen := linkHeader_pktLen pkt hempty
  have hsum := @linkHeader_dataLens n w hdr pkt segs hout hempty
  have hsegs := hp.nbSegs
  have htotal := hp.pktLen
  have hbyte := (w.mbuf pkt).pkt.nbSegs.toNat_lt
  constructor
  · intro h
    have hnb' := h.nbSegs
    have hlen' := h.pktLen
    rw [hnb, List.length_cons] at hnb'
    rw [hlen, hsum, ← htotal] at hlen'
    omega
  · intro h
    refine ⟨linkHeader_chain hp hout, fun k hk => ?_, ?_, ?_⟩
    · rcases List.mem_cons.mp hk with rfl | hk
      · exact huse
      · exact hp.inUse k hk
    · rw [hnb, List.length_cons]
      omega
    · rw [hlen, hsum, ← htotal]
      omega

end

/-- What `pkt_duplicate` has when it comes to prepend the header: an empty one, and behind it the
source or a clone of it. -/
structure World.BodyOf (w : World n) (pkt : Fin n) (segs : List (Fin n)) (useClone : UInt32)
    (v : World n) (hdr body : Fin n) (bodySegs : List (Fin n)) : Prop where
  copy : w.CopyOf pkt segs v body bodySegs
  olFlags : (v.mbuf body).olFlags = if useClone = 0 then (w.mbuf pkt).olFlags else 0
  source : ∃ own, w.CountsOff (hdr :: own) v ∧ ∀ k ∈ segs, k ∉ hdr :: own
  outside : hdr ∉ bodySegs
  inUse : v.pooled hdr = false
  empty : (v.mbuf hdr).pkt.dataLen = 0

theorem pktDuplicate_some {w w' : World n} {pkt hdr : Fin n} {segs : List (Fin n)}
    {useClone : UInt32} (hp : w.Packet pkt segs)
    (h : pktDuplicate w pkt useClone = (some hdr, w')) :
    ∃ v body bodySegs, w.BodyOf pkt segs useClone v hdr body bodySegs ∧
      w' = linkHeader v hdr body := by
  unfold pktDuplicate at h
  split at h
  next => cases h
  next hdr' u halloc =>
    have hnew := rtePktmbufAlloc_some halloc
    have hout : ∀ k ∈ segs, k ∉ [hdr'] := hp.outside (by simpa using hnew.pooled)
    have hcopy := hnew.countsOff.copyOf hout hp
    split at h
    next huse =>
      split at h
      next => cases h
      next body v hclone =>
        cases h
        obtain ⟨bodySegs, hbody, hoff, hfresh, hflags⟩ := rtePktmbufClone_some hcopy.packet hclone
        have hhdr : hdr ∉ bodySegs := not_mem_of_inUse hnew.inUse hfresh
        refine ⟨v, body, bodySegs, ⟨hcopy.trans hbody, ?_, ⟨bodySegs, ?_, ?_⟩, hhdr,
          hoff.inUse hdr hnew.inUse, ?_⟩, rfl⟩
        · rw [if_neg huse]
          exact hflags
        · exact (hnew.countsOff.mono (by simp)).trans (hoff.mono fun _ => List.mem_cons_of_mem _)
        · intro k hk hmem
          rcases List.mem_cons.mp hmem with heq | hmem
          · exact hout k hk (List.mem_singleton.mpr heq)
          · exact hcopy.packet.outside hfresh k hk hmem
        · rw [hoff.pkt hhdr]
          exact hnew.dataLen
    next huse =>
      cases h
      have hzero : useClone = 0 := not_not.mp huse
      obtain ⟨rest, hsegs, _⟩ := hp.chain.head
      have hpkt : pkt ∉ [hdr] := hout pkt (by simp [hsegs])
      refine ⟨u, pkt, segs, ⟨hcopy, ?_, ⟨[], hnew.countsOff, hout⟩, ?_, hnew.inUse, hnew.dataLen⟩,
        rfl⟩
      · rw [if_pos hzero]
        exact hnew.countsOff.olFlags hpkt
      · exact fun hmem => hout hdr hmem (List.mem_singleton.mpr rfl)

section

variable {w v : World n} {pkt hdr body : Fin n} {segs bodySegs : List (Fin n)} {useClone : UInt32}

theorem World.BodyOf.packet_iff (h : w.BodyOf pkt segs useClone v hdr body bodySegs) :
    (∃ segs', (linkHeader v hdr body).Packet hdr segs' ∧
        (linkHeader v hdr body).chainBytes segs' = w.chainBytes segs) ↔
      (w.mbuf pkt).pkt.pktLen.toNat < 65536 ∧ (w.mbuf pkt).pkt.nbSegs.toNat < 255 := by
  have hpacket := linkHeader_packet_iff h.copy.packet h.outside h.inUse h.empty
  rw [h.copy.pktLen, h.copy.nbSegs] at hpacket
  have hchain := linkHeader_chain h.copy.packet h.outside
  have hbytes := @linkHeader_bytes n v hdr body bodySegs h.outside h.empty
  rw [← hpacket]
  constructor
  · intro hex
    obtain ⟨segs', hsegs', _⟩ := hex
    have hsame : segs' = hdr :: bodySegs := hsegs'.chain.unique hchain
    rwa [hsame] at hsegs'
  · intro hp
    exact ⟨hdr :: bodySegs, hp, hbytes.trans h.copy.bytes⟩

/-- With cloning `pkt` names the clone, whose `ol_flags` were never copied. -/
theorem World.BodyOf.olFlags_iff (h : w.BodyOf pkt segs useClone v hdr body bodySegs) :
    ((linkHeader v hdr body).mbuf hdr).olFlags = (w.mbuf pkt).olFlags ↔
      useClone = 0 ∨ (w.mbuf pkt).olFlags = 0 := by
  rw [linkHeader_mbuf]
  show (v.mbuf body).olFlags = (w.mbuf pkt).olFlags ↔ _
  rw [h.olFlags]
  by_cases hclone : useClone = 0
  · simp [hclone]
  · rw [if_neg hclone]
    simp [hclone, eq_comm]

theorem World.BodyOf.keeps_source (h : w.BodyOf pkt segs useClone v hdr body bodySegs) :
    ∀ k ∈ segs, ((linkHeader v hdr body).mbuf k).pkt = (w.mbuf k).pkt ∧
      (linkHeader v hdr body).byte k = w.byte k := by
  obtain ⟨own, hoff, hsource⟩ := h.source
  have hall := hoff.trans ((linkHeader_countsOff v hdr body).mono (by simp))
  intro k hk
  exact ⟨hall.pkt (hsource k hk), funext fun i => hall.byte (hsource k hk) i⟩

end

/-- A duplicate is right exactly within the limits of the casts, and with cloning only when there
are no flags to lose. -/
theorem pktDuplicate_duplicates_iff {w w' : World n} {pkt hdr : Fin n} {segs : List (Fin n)}
    {useClone : UInt32} (hp : w.Packet pkt segs)
    (h : pktDuplicate w pkt useClone = (some hdr, w')) :
    w.Duplicates pkt segs w' hdr ↔
      (w.mbuf pkt).pkt.pktLen.toNat < 65536 ∧ (w.mbuf pkt).pkt.nbSegs.toNat < 255 ∧
        (useClone = 0 ∨ (w.mbuf pkt).olFlags = 0) := by
  obtain ⟨v, body, bodySegs, hbody, rfl⟩ := pktDuplicate_some hp h
  rw [← and_assoc, ← hbody.packet_iff, ← hbody.olFlags_iff]
  constructor
  · intro hdup
    exact ⟨hdup.packet, hdup.olFlags⟩
  · intro hcond
    obtain ⟨hpacket, hflags⟩ := hcond
    refine ⟨hpacket, ?_, ?_, ?_, hflags, hbody.keeps_source⟩
    · rw [linkHeader_mbuf]
      exact hbody.copy.inPort
    · rw [linkHeader_mbuf]
      exact hbody.copy.vlanMacip
    · rw [linkHeader_mbuf]
      exact hbody.copy.hash

/-- A frame in mbufs 0 and 1, with one header and two mbufs for clones in their pools. -/
def clonableFrame (olFlags : UInt16) : World 5 :=
  (rxChain (initEal (fun m => if m ≤ 1 then .packet else if m = 2 then .header else .clone)
    (fun i => some (Fin.ofNat 5 (i + 2))) fun _ => 0) 0 [(0, [1, 2, 3]), (1, [4, 5])]).modify 0
      fun b => { b with olFlags := olFlags }

theorem clonableFrame_packet (olFlags : UInt16) : (clonableFrame olFlags).Packet 0 [0, 1] where
  chain := ⟨rfl, rfl, rfl⟩
  inUse := by
    intro k hk
    rcases List.mem_cons.mp hk with rfl | hk
    · rfl
    · rw [List.mem_singleton.mp hk]
      rfl
  nbSegs := rfl
  pktLen := rfl

theorem pktDuplicate_duplicates_iff_cloned :
    (clonableFrame 0).Duplicates 0 [0, 1] (pktDuplicate (clonableFrame 0) 0 1).2 2 ↔
      ((clonableFrame 0).mbuf 0).pkt.pktLen.toNat < 65536 ∧
        ((clonableFrame 0).mbuf 0).pkt.nbSegs.toNat < 255 ∧
        ((1 : UInt32) = 0 ∨ ((clonableFrame 0).mbuf 0).olFlags = 0) :=
  pktDuplicate_duplicates_iff (clonableFrame_packet 0) (Prod.ext (by decide) rfl)

/-- A cloned packet loses its offload flags. -/
theorem pktDuplicate_dropsFlags :
    ¬ ∀ (w w' : World 5) (pkt hdr : Fin 5) (segs : List (Fin 5)) (useClone : UInt32),
      w.Packet pkt segs → pktDuplicate w pkt useClone = (some hdr, w') →
        w.Duplicates pkt segs w' hdr := by
  intro h
  have hdup := h (clonableFrame 1) (pktDuplicate (clonableFrame 1) 0 1).2 0 2 [0, 1] 1
    (clonableFrame_packet 1) (Prod.ext (by decide) rfl)
  exact absurd hdup.olFlags (by decide)

end LearningSwitch
