import Mathlib.Data.List.Forall2
import LearningSwitch.Io

namespace LearningSwitch

open LinkedChain

variable {n : Nat}

/-- The segments of a packet that its holder may use: none lies in a mempool, and the counters of
the first one speak of the whole chain. -/
structure World.Packet (w : World n) (m : Fin n) (segs : List (Fin n)) : Prop where
  chain : Chain w.next (some m) segs
  inUse : ∀ k ∈ segs, w.pooled k = false
  nbSegs : (w.mbuf m).pkt.nbSegs.toNat = segs.length
  pktLen : (w.mbuf m).pkt.pktLen.toNat = (segs.map fun k => (w.mbuf k).pkt.dataLen.toNat).sum

theorem World.Packet.outside {w : World n} {m : Fin n} {segs own : List (Fin n)}
    (h : w.Packet m segs) (hown : ∀ k ∈ own, w.pooled k = true) : ∀ k ∈ segs, k ∉ own :=
  fun k hk => not_mem_of_inUse (h.inUse k hk) hown

/-- The data of the segments, one after the other. -/
def World.chainBytes (w : World n) (segs : List (Fin n)) : List UInt8 :=
  segs.flatMap fun k => (w.view k).bytes

/-- Outside `own` only reference counts differ; no data room is written, and no mbuf in use goes
back to its pool. -/
structure World.CountsOff (w : World n) (own : List (Fin n)) (w' : World n) : Prop where
  mbuf : ∀ k, k ∉ own → ∃ r, w'.mbuf k = { w.mbuf k with refcnt := r }
  room : ∀ k, (w'.mbuf k).room = (w.mbuf k).room
  inUse : ∀ k, w.pooled k = false → w'.pooled k = false

theorem World.CountsOff.trans {u v w : World n} {own : List (Fin n)} (h : u.CountsOff own v)
    (h' : v.CountsOff own w) : u.CountsOff own w := by
  refine ⟨fun k hk => ?_, fun k => (h'.room k).trans (h.room k),
    fun k hk => h'.inUse k (h.inUse k hk)⟩
  obtain ⟨r, hr⟩ := h.mbuf k hk
  obtain ⟨r', hr'⟩ := h'.mbuf k hk
  refine ⟨r', ?_⟩
  rw [hr', hr]

theorem World.CountsOff.mono {w w' : World n} {own own' : List (Fin n)} (h : w.CountsOff own w')
    (hsub : ∀ k ∈ own, k ∈ own') : w.CountsOff own' w' :=
  ⟨fun k hk => h.mbuf k fun hown => hk (hsub k hown), h.room, h.inUse⟩

section

variable {w w' : World n} {own : List (Fin n)} {k : Fin n}

theorem World.CountsOff.pkt (h : w.CountsOff own w') (hk : k ∉ own) :
    (w'.mbuf k).pkt = (w.mbuf k).pkt := by
  obtain ⟨r, hr⟩ := h.mbuf k hk
  rw [hr]

theorem World.CountsOff.bufAddr (h : w.CountsOff own w') (hk : k ∉ own) :
    (w'.mbuf k).bufAddr = (w.mbuf k).bufAddr := by
  obtain ⟨r, hr⟩ := h.mbuf k hk
  rw [hr]

theorem World.CountsOff.olFlags (h : w.CountsOff own w') (hk : k ∉ own) :
    (w'.mbuf k).olFlags = (w.mbuf k).olFlags := by
  obtain ⟨r, hr⟩ := h.mbuf k hk
  rw [hr]

theorem World.CountsOff.byte (h : w.CountsOff own w') (hk : k ∉ own) (i : Nat) :
    w'.byte k i = w.byte k i := by
  rw [World.byte, World.byte, h.bufAddr hk, h.room, h.pkt hk]

theorem World.CountsOff.pooled (h : w.CountsOff own w') (hk : w'.pooled k = true) :
    w.pooled k = true := by
  cases hpooled : w.pooled k with
  | true => rfl
  | false => exact absurd (h.inUse k hpooled) (by simp [hk])

theorem World.CountsOff.chain (h : w.CountsOff own w') {p : Option (Fin n)} {segs : List (Fin n)}
    (hoff : ∀ k ∈ segs, k ∉ own) (hc : Chain w.next p segs) : Chain w'.next p segs :=
  hc.congr fun k hk => by rw [World.next, World.next, h.pkt (hoff k hk)]

theorem World.CountsOff.bytes (h : w.CountsOff own w') {segs : List (Fin n)}
    (hoff : ∀ k ∈ segs, k ∉ own) : w'.chainBytes segs = w.chainBytes segs := by
  refine List.flatMap_congr fun k hk => ?_
  have hbyte : w'.byte k = w.byte k := funext fun i => h.byte (hoff k hk) i
  rw [World.view, World.view, h.pkt (hoff k hk), hbyte]

theorem World.CountsOff.packet (h : w.CountsOff own w') {m : Fin n} {segs : List (Fin n)}
    (hoff : ∀ k ∈ segs, k ∉ own) (hp : w.Packet m segs) : w'.Packet m segs := by
  obtain ⟨rest, hsegs, _⟩ := hp.chain.head
  have hm : m ∉ own := hoff m (by simp [hsegs])
  refine ⟨h.chain hoff hp.chain, fun k hk => h.inUse k (hp.inUse k hk), ?_, ?_⟩
  · rw [h.pkt hm]
    exact hp.nbSegs
  · rw [h.pkt hm, hp.pktLen]
    refine congrArg List.sum (List.map_congr_left fun k hk => ?_)
    rw [h.pkt (hoff k hk)]

end

theorem World.CountsOff.modify {w : World n} {own : List (Fin n)} {m : Fin n} {f : Mbuf n → Mbuf n}
    (hm : m ∈ own) (hroom : ∀ b, (f b).room = b.room) : w.CountsOff own (w.modify m f) := by
  refine ⟨fun k hk => ⟨(w.mbuf k).refcnt, ?_⟩, fun k => ?_, fun _ h => h⟩
  · have hne : k ≠ m := fun heq => hk (heq ▸ hm)
    rw [modify_mbuf_ne w f hne]
  · by_cases hk : k = m
    · subst hk
      rw [modify_mbuf_self, hroom]
    · rw [modify_mbuf_ne w f hk]

theorem World.CountsOff.modifyPkt {w : World n} {own : List (Fin n)} {m : Fin n}
    {f : Pktmbuf n → Pktmbuf n} (hm : m ∈ own) : w.CountsOff own (w.modifyPkt m f) :=
  World.CountsOff.modify hm fun _ => rfl

/-- The same store on both sides keeps the relation, also when it is outside `own`. -/
theorem World.CountsOff.modifyPkt_both {w w' : World n} {own : List (Fin n)}
    (h : w.CountsOff own w') (m : Fin n) (f : Pktmbuf n → Pktmbuf n) :
    (w.modifyPkt m f).CountsOff own (w'.modifyPkt m f) := by
  refine ⟨fun k hk => ?_, fun k => ?_, h.inUse⟩
  · obtain ⟨r, hr⟩ := h.mbuf k hk
    refine ⟨r, ?_⟩
    rw [modifyPkt_mbuf, modifyPkt_mbuf, hr]
    split
    next => rfl
    next => rfl
  · rw [modifyPkt_room, modifyPkt_room, h.room]

theorem refcntUpdate_mbuf (w : World n) (m : Fin n) (value : UInt16) (k : Fin n) :
    ∃ r, (rteMbufRefcntUpdate w m value).2.mbuf k = { w.mbuf k with refcnt := r } := by
  unfold rteMbufRefcntUpdate rteMbufRefcntSet
  dsimp only
  by_cases hk : k = m
  · subst hk
    exact ⟨(w.mbuf k).refcnt + value, by rw [modify_mbuf_self]⟩
  · exact ⟨(w.mbuf k).refcnt, by rw [modify_mbuf_ne w _ hk]⟩

theorem refcntUpdate_countsOff (w : World n) (m : Fin n) (value : UInt16) (own : List (Fin n)) :
    w.CountsOff own (rteMbufRefcntUpdate w m value).2 := by
  refine ⟨fun k _ => refcntUpdate_mbuf w m value k, fun k => ?_, fun _ h => h⟩
  obtain ⟨r, hr⟩ := refcntUpdate_mbuf w m value k
  rw [hr]

/-- What a successful `rte_pktmbuf_alloc` hands out, and what it leaves alone. -/
structure World.Allocated (w : World n) (m : Fin n) (w' : World n) : Prop where
  countsOff : w.CountsOff [m] w'
  pooled : w.pooled m = true
  inUse : w'.pooled m = false
  dataLen : (w'.mbuf m).pkt.dataLen = 0
  olFlags : (w'.mbuf m).olFlags = 0

theorem rtePktmbufAlloc_some {w w' : World n} {mp : Pool} {m : Fin n}
    (h : rtePktmbufAlloc w mp = (some m, w')) : w.Allocated m w' := by
  unfold rtePktmbufAlloc rteMbufRawAlloc at h
  rcases rteMempoolGet_cases w mp with hget | ⟨m', _, hpooled, _, hget⟩
  · rw [hget] at h
    cases h
  · rw [hget] at h
    cases h
    refine ⟨⟨fun k hk => ?_, fun k => ?_, fun k hk => ?_⟩, hpooled, ?_, ?_, ?_⟩
    · have hne : k ≠ m := by simpa using hk
      refine ⟨(w.mbuf k).refcnt, ?_⟩
      rw [rtePktmbufReset, rteMbufRefcntSet, modify_mbuf_ne _ _ hne, modify_mbuf_ne _ _ hne]
      rfl
    · by_cases hk : k = m
      · subst hk
        simp [rtePktmbufReset, rteMbufRefcntSet, World.emit]
      · rw [rtePktmbufReset, rteMbufRefcntSet, modify_mbuf_ne _ _ hk, modify_mbuf_ne _ _ hk]
        rfl
    · have hne : k ≠ m := ne_of_inUse hk hpooled
      simp [rtePktmbufReset, rteMbufRefcntSet, World.emit, World.modify, hne, hk]
    · simp [rtePktmbufReset, rteMbufRefcntSet, World.emit, World.modify]
    · simp [rtePktmbufReset]
    · simp [rtePktmbufReset]

theorem rtePktmbufAttach_countsOff (w : World n) (mi md : Fin n) :
    w.CountsOff [mi] (rtePktmbufAttach w mi md) := by
  unfold rtePktmbufAttach
  dsimp only
  refine (refcntUpdate_countsOff w md 1 [mi]).trans ?_
  exact World.CountsOff.modify (by simp) fun _ => rfl

/-- `c` shows the same bytes as `s`, and all that the clone loop may change in its header is the
link and the two counters. -/
structure ClonedFrom (w w' : World n) (c s : Fin n) : Prop where
  bufAddr : (w'.mbuf c).bufAddr = (w.mbuf s).bufAddr
  pkt : ∃ next pktLen nbSegs, (w'.mbuf c).pkt =
    { (w.mbuf s).pkt with next := next, pktLen := pktLen, nbSegs := nbSegs }

theorem ClonedFrom.source {w u w' : World n} {own : List (Fin n)} {c s : Fin n}
    (h : ClonedFrom u w' c s) (hoff : w.CountsOff own u) (hs : s ∉ own) : ClonedFrom w w' c s := by
  refine ⟨h.bufAddr.trans (hoff.bufAddr hs), ?_⟩
  rw [← hoff.pkt hs]
  exact h.pkt

theorem ClonedFrom.keep {w u w' : World n} {own : List (Fin n)} {c s : Fin n}
    (h : ClonedFrom w u c s) (hoff : u.CountsOff own w') (hc : c ∉ own) : ClonedFrom w w' c s := by
  refine ⟨(hoff.bufAddr hc).trans h.bufAddr, ?_⟩
  rw [hoff.pkt hc]
  exact h.pkt

theorem ClonedFrom.modifyPkt {w w' : World n} {c s : Fin n} (h : ClonedFrom w w' c s) (m : Fin n)
    {f : Pktmbuf n → Pktmbuf n} (hf : ∀ p, ∃ next pktLen nbSegs,
      f p = { p with next := next, pktLen := pktLen, nbSegs := nbSegs }) :
    ClonedFrom w (w'.modifyPkt m f) c s := by
  refine ⟨(modifyPkt_bufAddr w' m c f).trans h.bufAddr, ?_⟩
  rw [modifyPkt_mbuf]
  split
  next =>
    obtain ⟨next, pktLen, nbSegs, hpkt⟩ := hf (w'.mbuf c).pkt
    obtain ⟨_, _, _, hpkt'⟩ := h.pkt
    exact ⟨next, pktLen, nbSegs, by rw [hpkt, hpkt']⟩
  next => exact h.pkt

theorem ClonedFrom.relink {w w' : World n} {c s : Fin n} (h : ClonedFrom w w' c s) (m : Fin n)
    (next : Option (Fin n)) : ClonedFrom w (w'.modifyPkt m fun p => { p with next := next }) c s :=
  h.modifyPkt m fun p => ⟨next, p.pktLen, p.nbSegs, rfl⟩

theorem rtePktmbufAttach_clonedFrom (w : World n) (mi md : Fin n) :
    ClonedFrom w (rtePktmbufAttach w mi md) mi md := by
  have hd := refcntUpdate_countsOff w md 1 []
  unfold rtePktmbufAttach
  dsimp only
  refine ⟨?_, none, (w.mbuf md).pkt.dataLen.toUInt32, 1, ?_⟩
  · rw [modify_mbuf_self]
    exact hd.bufAddr (by simp)
  · rw [modify_mbuf_self, hd.pkt (by simp)]

theorem rtePktmbufAttach_olFlags (w : World n) (mi md : Fin n) :
    ((rtePktmbufAttach w mi md).mbuf mi).olFlags = (w.mbuf mi).olFlags := by
  unfold rtePktmbufAttach
  dsimp only
  rw [modify_mbuf_self]
  exact (refcntUpdate_countsOff w md 1 []).olFlags (by simp)

/-- The memory after the body of the clone loop: `mi` shares the data of `md` and is linked
behind `prev`. In the first pass `prev` is `mi`, whose link to itself a later store replaces. -/
def attachBehind (w : World n) (prev mi md : Fin n) : World n :=
  (rtePktmbufAttach w mi md).modifyPkt prev fun p => { p with next := some mi }

theorem attachBehind_countsOff (w : World n) (prev mi md : Fin n) :
    w.CountsOff [prev, mi] (attachBehind w prev mi md) :=
  ((rtePktmbufAttach_countsOff w mi md).mono (by simp)).trans (World.CountsOff.modifyPkt (by simp))

/-- Apart from the link in `prev`, the body writes to `mi` only. -/
theorem attachBehind_linked (w : World n) (prev mi md : Fin n) :
    (w.modifyPkt prev fun p => { p with next := some mi }).CountsOff [mi]
      (attachBehind w prev mi md) :=
  (rtePktmbufAttach_countsOff w mi md).modifyPkt_both prev _

theorem attachBehind_clonedFrom (w : World n) (prev mi md : Fin n) :
    ClonedFrom w (attachBehind w prev mi md) mi md :=
  (rtePktmbufAttach_clonedFrom w mi md).relink prev (some mi)

theorem attachBehind_olFlags (w : World n) (prev mi md : Fin n) :
    ((attachBehind w prev mi md).mbuf mi).olFlags = (w.mbuf mi).olFlags := by
  rw [← rtePktmbufAttach_olFlags w mi md, attachBehind, modifyPkt_mbuf]
  split
  next => rfl
  next => rfl

theorem attachBehind_next {w : World n} {prev mi md k : Fin n} (hprev : k ≠ prev) (hmi : k ≠ mi) :
    (attachBehind w prev mi md).next k = w.next k := by
  rw [World.next, World.next, (attachBehind_countsOff w prev mi md).pkt (by simp [hprev, hmi])]

/-- `mi :: clones` is a finished chain that shows, segment by segment, what `srcs` showed. -/
structure World.Cloned (w : World n) (mi : Fin n) (clones srcs : List (Fin n)) (w' : World n) :
    Prop where
  copies : List.Forall₂ (ClonedFrom w w') (mi :: clones) srcs
  chain : Chain w'.next (some mi) (mi :: clones)
  fresh : ∀ c ∈ clones, w.pooled c = true
  inUse : ∀ c ∈ mi :: clones, w'.pooled c = false
  olFlags : (w'.mbuf mi).olFlags = (w.mbuf mi).olFlags

/-- The last segment: the loop ends with `*prev = NULL`. -/
theorem cloned_last {w : World n} {prev mi md : Fin n} (hmi : w.pooled mi = false) :
    w.Cloned mi [] [md]
      ((attachBehind w prev mi md).modifyPkt mi fun p => { p with next := none }) where
  copies := by
    refine List.Forall₂.cons ?_ List.Forall₂.nil
    exact (attachBehind_clonedFrom w prev mi md).relink mi none
  chain := ⟨rfl, by rw [World.next, modifyPkt_pkt_self]; rfl⟩
  fresh := by simp
  inUse := by
    intro c hc
    obtain rfl : c = mi := by simpa using hc
    exact (attachBehind_countsOff w prev c md).inUse c hmi
  olFlags := by
    rw [modifyPkt_mbuf, if_pos rfl]
    exact attachBehind_olFlags w prev mi md

section

variable {w u w' : World n} {prev mi md mi' : Fin n} {clones srcs : List (Fin n)}

theorem attachBehind_alloc (halloc : (attachBehind w prev mi md).Allocated mi' u) :
    w.CountsOff [prev, mi, mi'] u :=
  ((attachBehind_countsOff w prev mi md).mono (by simp)).trans (halloc.countsOff.mono (by simp))

theorem attachBehind_fresh (halloc : (attachBehind w prev mi md).Allocated mi' u) :
    w.pooled mi' = true :=
  (attachBehind_countsOff w prev mi md).pooled halloc.pooled

/-- One more segment in front: what the loop does from `mi'` on leaves `mi` linked to it. -/
theorem World.Cloned.cons (h : u.Cloned mi' clones srcs w')
    (halloc : (attachBehind w prev mi md).Allocated mi' u)
    (hoff : (u.modifyPkt mi fun p => { p with next := some mi' }).CountsOff (mi' :: clones) w')
    (hmi : w.pooled mi = false) (hsrcs : ∀ s ∈ srcs, s ∉ [prev, mi, mi']) :
    w.Cloned mi (mi' :: clones) (md :: srcs) w' := by
  have hstart := attachBehind_alloc halloc
  have hpooled := attachBehind_fresh halloc
  have hmi' : mi ≠ mi' := ne_of_inUse hmi hpooled
  have hmiUse : u.pooled mi = false := hstart.inUse mi hmi
  have hclones : mi ∉ clones := not_mem_of_inUse hmiUse h.fresh
  have hout : mi ∉ mi' :: clones := by
    rw [List.mem_cons, not_or]
    exact ⟨hmi', hclones⟩
  refine ⟨List.Forall₂.cons ?_ ?_, ⟨rfl, ?_⟩, ?_, ?_, ?_⟩
  · have hcopy := (attachBehind_clonedFrom w prev mi md).keep halloc.countsOff (by simpa using hmi')
    exact (hcopy.relink mi (some mi')).keep hoff hout
  · refine List.forall₂_iff_zip.mpr ⟨h.copies.length_eq, fun hzip => ?_⟩
    have hs := hsrcs _ (List.of_mem_zip hzip).2
    exact (List.forall₂_zip h.copies hzip).source hstart hs
  · have hnext : w'.next mi = some mi' := by
      rw [World.next, hoff.pkt hout, modifyPkt_pkt_self]
    rw [hnext]
    exact h.chain
  · intro c hc
    rcases List.mem_cons.mp hc with rfl | hc
    · exact hpooled
    · exact hstart.pooled (h.fresh c hc)
  · intro c hc
    rcases List.mem_cons.mp hc with rfl | hc
    · exact hoff.inUse c hmiUse
    · exact h.inUse c hc
  · rw [hoff.olFlags hout, modifyPkt_mbuf, if_pos rfl]
    rw [halloc.countsOff.olFlags (by simpa using hmi')]
    exact attachBehind_olFlags w prev mi md

theorem attachBehind_rest (halloc : (attachBehind w prev mi md).Allocated mi' u)
    (hoff : (u.modifyPkt mi fun p => { p with next := some mi' }).CountsOff (mi' :: clones) w') :
    (w.modifyPkt prev fun p => { p with next := some mi }).CountsOff (mi :: mi' :: clones) w' := by
  have hlinked := attachBehind_linked w prev mi md
  refine (hlinked.mono (by simp)).trans ((halloc.countsOff.mono (by simp)).trans ?_)
  exact World.CountsOff.trans (World.CountsOff.modifyPkt (by simp))
    (hoff.mono fun _ => List.mem_cons_of_mem _)

end

/-- A pass of the loop: it was the last one, or it found no mbuf, or it goes on with a fresh one. -/
theorem cloneLoop_cases {mp : Pool} {fuel : Nat} {w w' : World n} {mi prev md prev' : Fin n}
    {last : Option (Fin n)} {nseg nseg' : UInt8} (hprev : md ≠ prev) (hmi : md ≠ mi)
    (h : cloneLoop mp (fuel + 1) w mi prev md nseg = (last, prev', nseg', w')) :
    (w.next md = none ∧ mi = prev' ∧ nseg' = nseg + 1 ∧ w' = attachBehind w prev mi md) ∨
      (last = none ∧ mi = prev' ∧ rtePktmbufAlloc (attachBehind w prev mi md) mp = (none, w')) ∨
      ∃ md' mi' u, w.next md = some md' ∧
        rtePktmbufAlloc (attachBehind w prev mi md) mp = (some mi', u) ∧
        cloneLoop mp fuel u mi' mi md' (nseg + 1) = (last, prev', nseg', w') := by
  have hbody : (attachBehind w prev mi md).next md = w.next md := attachBehind_next hprev hmi
  unfold cloneLoop at h
  dsimp only at h
  split at h
  next hnext =>
    cases h
    exact Or.inl ⟨hbody.symm.trans hnext, rfl, rfl, rfl⟩
  next md' hnext =>
    split at h
    next v halloc =>
      cases h
      exact Or.inr (Or.inl ⟨rfl, rfl, halloc⟩)
    next mi' u halloc =>
      exact Or.inr (Or.inr ⟨md', mi', u, hbody.symm.trans hnext, halloc, h⟩)

/-- The clone loop, by induction on the segments that are left: it links a copy of each behind
`prev`, and gives up only when the pool does. -/
theorem cloneLoop_spec {mp : Pool} {srcs : List (Fin n)} {fuel : Nat} {w w' : World n}
    {mi prev md last prev' : Fin n} {nseg nseg' : UInt8} (hchain : Chain w.next (some md) srcs)
    (hfuel : srcs.length ≤ fuel) (hsrcs : ∀ s ∈ srcs, w.pooled s = false ∧ s ≠ mi ∧ s ≠ prev)
    (hmi : w.pooled mi = false)
    (h : cloneLoop mp fuel w mi prev md nseg = (some last, prev', nseg', w')) :
    ∃ clones, w.Cloned mi clones srcs (w'.modifyPkt prev' fun p => { p with next := none }) ∧
      (w.modifyPkt prev fun p => { p with next := some mi }).CountsOff (mi :: clones)
        (w'.modifyPkt prev' fun p => { p with next := none }) ∧
      nseg' = nseg + .ofNat srcs.length := by
  induction srcs generalizing fuel w mi prev md nseg with
  | nil => exact absurd hchain (by simp [Chain])
  | cons s srcs ih =>
    obtain rfl : md = s := by simpa using hchain.1
    obtain ⟨hmd, hmdmi, hmdprev⟩ := hsrcs md (by simp)
    cases fuel with
    | zero => simp at hfuel
    | succ fuel =>
      rcases cloneLoop_cases hmdprev hmdmi h with
        ⟨hnext, rfl, rfl, rfl⟩ | ⟨hnone, _⟩ | ⟨md', mi', u, hnext, hget, hrest⟩
      · have hlinked := attachBehind_linked w prev mi md
        have hnil : srcs = [] := by
          have htail := hchain.2
          rw [hnext] at htail
          exact htail.unique rfl
        subst hnil
        exact ⟨[], cloned_last hmi, hlinked.trans (World.CountsOff.modifyPkt (by simp)), rfl⟩
      · cases hnone
      · -- the rest of the loop starts in `u` and links behind `mi`
        have halloc := rtePktmbufAlloc_some hget
        have hstart := attachBehind_alloc halloc
        have hleft : ∀ s ∈ srcs, u.pooled s = false ∧ s ≠ mi' ∧ s ≠ mi := by
          intro s hs
          obtain ⟨huse, hsmi, _⟩ := hsrcs s (by simp [hs])
          exact ⟨hstart.inUse s huse, ne_of_inUse huse (attachBehind_fresh halloc), hsmi⟩
        have hout : ∀ s ∈ srcs, s ∉ [prev, mi, mi'] := by
          intro s hs
          obtain ⟨_, _, hsprev⟩ := hsrcs s (by simp [hs])
          simp [hsprev, (hleft s hs).2]
        have htail : Chain u.next (some md') srcs := by
          rw [← hnext]
          exact hstart.chain hout hchain.2
        obtain ⟨clones, hcloned, hoff, hnseg⟩ := ih htail (by simpa using hfuel) hleft
          halloc.inUse hrest
        have hone : nseg' = nseg + .ofNat (srcs.length + 1) := by
          rw [hnseg, UInt8.ofNat_add, UInt8.add_assoc, UInt8.add_comm 1]
          rfl
        exact ⟨mi' :: clones, hcloned.cons halloc hoff hmi hout, attachBehind_rest halloc hoff, hone⟩

theorem ClonedFrom.dataLen {w w' : World n} {c s : Fin n} (h : ClonedFrom w w' c s) :
    (w'.mbuf c).pkt.dataLen = (w.mbuf s).pkt.dataLen := by
  obtain ⟨_, _, _, hpkt⟩ := h.pkt
  rw [hpkt]

theorem ClonedFrom.bytes {w w' : World n} {c s : Fin n} (h : ClonedFrom w w' c s)
    (hroom : ∀ k, (w'.mbuf k).room = (w.mbuf k).room) : (w'.view c).bytes = (w.view s).bytes := by
  obtain ⟨_, _, _, hpkt⟩ := h.pkt
  have hbyte : w'.byte c = w.byte s := by
    funext i
    rw [World.byte, World.byte, h.bufAddr, hroom, hpkt]
  rw [World.view, World.view, h.dataLen, hbyte]

/-- The packet `mc` stands for what `md` stood for: the same bytes, lengths and metadata. -/
structure World.CopyOf (w : World n) (md : Fin n) (srcs : List (Fin n)) (w' : World n) (mc : Fin n)
    (segs : List (Fin n)) : Prop where
  packet : w'.Packet mc segs
  bytes : w'.chainBytes segs = w.chainBytes srcs
  nbSegs : (w'.mbuf mc).pkt.nbSegs = (w.mbuf md).pkt.nbSegs
  pktLen : (w'.mbuf mc).pkt.pktLen = (w.mbuf md).pkt.pktLen
  inPort : (w'.mbuf mc).pkt.inPort = (w.mbuf md).pkt.inPort
  vlanMacip : (w'.mbuf mc).pkt.vlanMacip = (w.mbuf md).pkt.vlanMacip
  hash : (w'.mbuf mc).pkt.hash = (w.mbuf md).pkt.hash

theorem World.CopyOf.trans {u v w : World n} {m m' m'' : Fin n} {l l' l'' : List (Fin n)}
    (h : u.CopyOf m l v m' l') (h' : v.CopyOf m' l' w m'' l'') : u.CopyOf m l w m'' l'' :=
  ⟨h'.packet, h'.bytes.trans h.bytes, h'.nbSegs.trans h.nbSegs, h'.pktLen.trans h.pktLen,
    h'.inPort.trans h.inPort, h'.vlanMacip.trans h.vlanMacip, h'.hash.trans h.hash⟩

theorem World.CountsOff.copyOf {w w' : World n} {own : List (Fin n)} (h : w.CountsOff own w')
    {m : Fin n} {segs : List (Fin n)} (hoff : ∀ k ∈ segs, k ∉ own) (hp : w.Packet m segs) :
    w.CopyOf m segs w' m segs := by
  obtain ⟨rest, hsegs, _⟩ := hp.chain.head
  have hm : m ∉ own := hoff m (by simp [hsegs])
  refine ⟨h.packet hoff hp, h.bytes hoff, ?_, ?_, ?_, ?_, ?_⟩
  all_goals rw [h.pkt hm]

theorem map_eq_of_forall₂ {α β γ : Type} {R : α → β → Prop} {f : α → γ} {g : β → γ} {l : List α}
    {l' : List β} (h : List.Forall₂ R l l') (hR : ∀ a b, R a b → f a = g b) :
    l.map f = l'.map g := by
  have hmap : List.Forall₂ (· = ·) (l.map f) (l'.map g) := by
    rw [List.forall₂_map_left_iff, List.forall₂_map_right_iff]
    exact h.imp hR
  rwa [List.forall₂_eq_eq_eq] at hmap

/-- The chain becomes a packet when its head gets the counters of the source. -/
theorem World.Cloned.copyOf {w v : World n} {md mc : Fin n} {clones srcs : List (Fin n)}
    (h : w.Cloned mc clones srcs v) (hp : w.Packet md srcs)
    (hroom : ∀ k, (v.mbuf k).room = (w.mbuf k).room) :
    w.CopyOf md srcs (v.modifyPkt mc fun p =>
      { p with nbSegs := (w.mbuf md).pkt.nbSegs, pktLen := (w.mbuf md).pkt.pktLen })
      mc (mc :: clones) := by
  set v' := v.modifyPkt mc fun p =>
    { p with nbSegs := (w.mbuf md).pkt.nbSegs, pktLen := (w.mbuf md).pkt.pktLen } with hv'
  have hself : (v'.mbuf mc).pkt = { (v.mbuf mc).pkt with
      nbSegs := (w.mbuf md).pkt.nbSegs, pktLen := (w.mbuf md).pkt.pktLen } := by
    rw [hv', modifyPkt_pkt_self]
  have hcopies : List.Forall₂ (ClonedFrom w v') (mc :: clones) srcs :=
    h.copies.imp fun c s hc => hc.modifyPkt mc fun p => ⟨p.next, _, _, rfl⟩
  have hlens := map_eq_of_forall₂ hcopies fun c s hc => congrArg UInt16.toNat hc.dataLen
  have hbytes := map_eq_of_forall₂ hcopies fun c s hc =>
    hc.bytes fun k => (modifyPkt_room v mc k _).trans (hroom k)
  have hnext : v'.next = v.next := by
    funext k
    rw [World.next, World.next, hv', modifyPkt_mbuf]
    split
    next => rfl
    next => rfl
  obtain ⟨rest, hsrcs, _⟩ := hp.chain.head
  have hhead : ClonedFrom w v mc md := by
    have hfirst := h.copies
    rw [hsrcs] at hfirst
    exact (List.forall₂_cons.mp hfirst).1
  obtain ⟨_, _, _, hpkt⟩ := hhead.pkt
  refine ⟨⟨?_, h.inUse, ?_, ?_⟩, ?_, ?_, ?_, ?_, ?_, ?_⟩
  · rw [hnext]
    exact h.chain
  · rw [hself, hcopies.length_eq]
    exact hp.nbSegs
  · rw [hself, hlens]
    exact hp.pktLen
  · rw [World.chainBytes, World.chainBytes, List.flatMap_def, List.flatMap_def, hbytes]
  all_goals rw [hself]
  all_goals rw [hpkt]

/-- A clone that succeeds is a packet of fresh mbufs over the data of the source; the source loses
nothing, and the flags of the clone are those of a new mbuf. -/
theorem rtePktmbufClone_some {w w' : World n} {md mc : Fin n} {mp : Pool} {srcs : List (Fin n)}
    (hp : w.Packet md srcs) (h : rtePktmbufClone w md mp = (some mc, w')) :
    ∃ segs, w.CopyOf md srcs w' mc segs ∧ w.CountsOff segs w' ∧
      (∀ c ∈ segs, w.pooled c = true) ∧ (w'.mbuf mc).olFlags = 0 := by
  unfold rtePktmbufClone at h
  split at h
  next => cases h
  next mc' u halloc =>
    dsimp only at h
    obtain ⟨last, prev, nseg, v, hloop⟩ : ∃ last prev nseg v,
        cloneLoop mp n u mc' mc' md 0 = (last, prev, nseg, v) := ⟨_, _, _, _, rfl⟩
    rw [hloop] at h
    cases last with
    | none => cases h
    | some last =>
      cases h
      have hnew := rtePktmbufAlloc_some halloc
      have hout : ∀ s ∈ srcs, s ∉ [mc] := hp.outside (by simpa using hnew.pooled)
      have hpu := hnew.countsOff.packet hout hp
      have hlen : srcs.length ≤ n := by
        simpa using hp.chain.nodup.length_le_card
      obtain ⟨clones, hcloned, hoff, hnseg⟩ := cloneLoop_spec hpu.chain hlen
        (fun s hs => ⟨hpu.inUse s hs, by simpa using hout s hs, by simpa using hout s hs⟩)
        hnew.inUse hloop
      have hnseg : nseg = (u.mbuf md).pkt.nbSegs := by
        rw [hnseg, UInt8.zero_add, ← hpu.nbSegs, UInt8.ofNat_toNat]
      subst hnseg
      have hbuilt := World.CountsOff.trans (World.CountsOff.modifyPkt (by simp)) hoff
      refine ⟨mc :: clones, ?_, ?_, ?_, ?_⟩
      · exact (hnew.countsOff.copyOf hout hp).trans (hcloned.copyOf hpu hbuilt.room)
      · refine (hnew.countsOff.mono (by simp)).trans (hbuilt.trans ?_)
        exact World.CountsOff.modifyPkt (by simp)
      · intro c hc
        rcases List.mem_cons.mp hc with rfl | hc
        · exact hnew.pooled
        · exact hnew.countsOff.pooled (hcloned.fresh c hc)
      · rw [modifyPkt_mbuf, if_pos rfl]
        exact hcloned.olFlags.trans hnew.olFlags

end LearningSwitch
