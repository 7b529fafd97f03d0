import LearningSwitch.MbufCounts
import LearningSwitch.PktDuplicate

namespace LearningSwitch

open LinkedChain RefCount

variable {n : Nat}

section Take

variable {w w' : World n} {users : List (Fin n)} {m : Fin n} {mp : Pool}

/-- A pool that gives nothing leaves the mbufs alone. -/
theorem World.Counted.allocFailed (h : w.Counted users)
    (halloc : rtePktmbufAlloc w mp = (none, w')) : w'.Counted users ∧ w'.mbuf = w.mbuf := by
  unfold rtePktmbufAlloc rteMbufRawAlloc at halloc
  rcases rteMempoolGet_cases w mp with hget | ⟨m, _, _, _, hget⟩
  · rw [hget] at halloc
    cases halloc
    have hsame : (getFailedWorld w mp).mbuf = w.mbuf := rfl
    refine ⟨h.congr (fun _ => rfl) (fun _ => rfl) rfl ?_, hsame⟩
    have hlogged := h.ledger.emit (e := .getFailed mp) fun x => ⟨by simp, by simp, by simp⟩
    exact hlogged.congr rfl rfl
  · rw [hget] at halloc
    cases halloc

/-- An mbuf from a pool: direct, unshared and linked to none. -/
structure World.Fresh (w : World n) (users : List (Fin n)) (m : Fin n) (w' : World n) : Prop where
  notMem : m ∉ users
  counted : w'.Counted (m :: users)
  target : w'.target m = m
  refcnt : (w'.mbuf m).refcnt = 1
  next : w'.next m = none
  keep : ∀ k, k ≠ m → w'.mbuf k = w.mbuf k

theorem World.Fresh.ne (h : w.Fresh users m w') {k : Fin n} (hk : k ∈ users) : k ≠ m :=
  fun heq => h.notMem (heq ▸ hk)

theorem World.Fresh.next_eq (h : w.Fresh users m w') {k : Fin n} (hk : k ∈ users) :
    w'.next k = w.next k := by
  rw [World.next, h.keep k (h.ne hk), World.next]

theorem World.Fresh.target_eq (h : w.Fresh users m w') {k : Fin n} (hk : k ∈ users) :
    w'.target k = w.target k := by
  rw [World.target, h.keep k (h.ne hk), World.target]

theorem World.Counted.alloc (h : w.Counted users) (halloc : rtePktmbufAlloc w mp = (some m, w')) :
    w.Fresh users m w' := by
  unfold rtePktmbufAlloc rteMbufRawAlloc at halloc
  rcases rteMempoolGet_cases w mp with hget | ⟨m', _, hpooled, _, hget⟩
  · rw [hget] at halloc
    cases halloc
  · rw [hget] at halloc
    cases halloc
    obtain ⟨hout, _⟩ := refs_eq_zero_iff.mp (h.free_of_pooled hpooled)
    have hself : w.target m = m := h.attached.outside m hout
    refine ⟨hout, h.take hpooled rfl rfl (fun k hk => ?_) ?_ ?_, ?_, ?_, ?_, fun k hk => ?_⟩
    · rw [rtePktmbufReset, rteMbufRefcntSet, modify_mbuf_ne _ _ hk, modify_mbuf_ne _ _ hk]
      rfl
    · rw [World.target, rtePktmbufReset, rteMbufRefcntSet, modify_mbuf_self, modify_mbuf_self]
      rfl
    · rw [rtePktmbufReset, rteMbufRefcntSet, modify_mbuf_self, modify_mbuf_self]
    · rw [World.target, rtePktmbufReset, rteMbufRefcntSet, modify_mbuf_self, modify_mbuf_self]
      exact hself
    · rw [rtePktmbufReset, rteMbufRefcntSet, modify_mbuf_self, modify_mbuf_self]
    · rw [World.next, rtePktmbufReset, modify_mbuf_self]
    · rw [rtePktmbufReset, rteMbufRefcntSet, modify_mbuf_ne _ _ hk, modify_mbuf_ne _ _ hk]
      rfl

/-- A segment in use to which another may be attached: direct, with room in its counter. -/
structure World.Sharable (w : World n) (users : List (Fin n)) (x : Fin n) : Prop where
  mem : x ∈ users
  direct : w.target x = x
  room : (w.mbuf x).refcnt ≠ 0xffff

theorem World.Fresh.sharable (h : w.Fresh users m w') {k : Fin n} (hk : w.Sharable users k) :
    w'.Sharable (m :: users) k := by
  refine ⟨List.mem_cons_of_mem _ hk.mem, (h.target_eq hk.mem).trans hk.direct, ?_⟩
  rw [h.keep k (h.ne hk.mem)]
  exact hk.room

theorem attachBehind_target {w : World n} {mi md : Fin n} (prev : Fin n) {k : Fin n} (hk : k ≠ mi) :
    (attachBehind w prev mi md).target k = w.target k := by
  rw [World.target, attachBehind, modifyPkt_bufAddr]
  exact (rtePktmbufAttach_countsOff w mi md).bufAddr (by simpa using hk)

theorem attachBehind_refcnt (w : World n) (prev : Fin n) {mi md k : Fin n} (hk : k ≠ mi)
    (hkmd : k ≠ md) : ((attachBehind w prev mi md).mbuf k).refcnt = (w.mbuf k).refcnt := by
  have hattach : (rtePktmbufAttach w mi md).mbuf k = w.mbuf k := by
    rw [rtePktmbufAttach, modify_mbuf_ne _ _ hk, rteMbufRefcntUpdate, rteMbufRefcntSet,
      modify_mbuf_ne _ _ hkmd]
  rw [attachBehind, modifyPkt_mbuf]
  split
  next => rw [hattach]
  next => rw [hattach]

/-- The other segments of the packet stay as the loop needs them. -/
theorem World.Sharable.attachBehind {md k : Fin n} (hk : w.Sharable users k) (prev : Fin n)
    (hkm : k ≠ m) (hkmd : k ≠ md) : (attachBehind w prev m md).Sharable users k := by
  refine ⟨hk.mem, (attachBehind_target prev hkm).trans hk.direct, ?_⟩
  rw [attachBehind_refcnt w prev hkm hkmd]
  exact hk.room

/-- The body of the clone loop. -/
theorem World.Counted.loopBody (h : w.Counted users) (prev : Fin n)
    {mi md : Fin n} (hmi : mi ∈ users) (hself : w.target mi = mi) (halone : (w.mbuf mi).refcnt = 1)
    (hmd : w.Sharable users md) (hne : md ≠ mi) : (attachBehind w prev mi md).Counted users :=
  (h.attach hmi hself halone hmd.mem hmd.direct hmd.room hne).modifyPkt prev _

theorem relink_next (w : World n) (m : Fin n) (next : Option (Fin n)) (k : Fin n) :
    (w.modifyPkt m fun p => { p with next := next }).next k = if k = m then next else w.next k := by
  rw [World.next, modifyPkt_mbuf]
  split <;> rfl

theorem attachBehind_next_prev (w : World n) (prev mi md : Fin n) :
    (attachBehind w prev mi md).next prev = some mi := by
  rw [attachBehind, relink_next, if_pos rfl]

/-- What the clone loop leaves once `*prev = NULL` is written: `mi` heads a chain of mbufs that
count as in use, and the loop wrote to no other link but that of `prev`. -/
structure World.Extends (w : World n) (users : List (Fin n)) (mi prev : Fin n)
    (clones : List (Fin n)) (w' : World n) : Prop where
  counted : w'.Counted (clones ++ users)
  chain : Chain w'.next (some mi) (mi :: clones)
  linked : prev ≠ mi → w'.next prev = some mi
  next : ∀ k ∈ users, k ≠ mi → k ≠ prev → w'.next k = w.next k

/-- The loop stops behind `mi`, with or without a next segment to copy. -/
theorem World.Counted.lastClone {mi prev md : Fin n} (h : w'.Counted users)
    (hsame : w'.mbuf = (attachBehind w prev mi md).mbuf) :
    w.Extends users mi prev [] (w'.modifyPkt mi fun p => { p with next := none }) := by
  have hnext : w'.next = (attachBehind w prev mi md).next := by
    funext k
    rw [World.next, hsame, World.next]
  refine ⟨h.modifyPkt mi _, ⟨rfl, ?_⟩, fun hne => ?_, fun k _ hmi hprev => ?_⟩
  · rw [relink_next, if_pos rfl]
    rfl
  · rw [relink_next, if_neg hne, hnext, attachBehind_next_prev]
  · rw [relink_next, if_neg hmi, hnext, attachBehind_next hprev hmi]

/-- By induction on the segments that are left; the pool may run dry before any of them. -/
theorem World.Counted.loop {srcs : List (Fin n)} {fuel : Nat} {mi prev md prev' : Fin n}
    {last : Option (Fin n)} {nseg nseg' : UInt8} (h : w.Counted users)
    (hmi : mi ∈ users) (hself : w.target mi = mi) (halone : (w.mbuf mi).refcnt = 1)
    (hprev : prev ∈ users) (hchain : Chain w.next (some md) srcs) (hfuel : srcs.length ≤ fuel)
    (hsrcs : ∀ s ∈ srcs, w.Sharable users s ∧ s ≠ mi ∧ s ≠ prev)
    (hloop : cloneLoop mp fuel w mi prev md nseg = (last, prev', nseg', w')) :
    ∃ clones, w.Extends users mi prev clones
      (w'.modifyPkt prev' fun p => { p with next := none }) := by
  induction srcs generalizing fuel w users mi prev md nseg with
  | nil => exact absurd hchain (by simp [Chain])
  | cons s srcs ih =>
    obtain rfl : md = s := by simpa using hchain.1
    obtain ⟨hmd, hmdmi, hmdprev⟩ := hsrcs md (by simp)
    have hbody := h.loopBody prev hmi hself halone hmd hmdmi
    cases fuel with
    | zero => simp at hfuel
    | succ fuel =>
      rcases cloneLoop_cases hmdprev hmdmi hloop with
        ⟨_, rfl, _, rfl⟩ | ⟨_, rfl, hfailed⟩ | ⟨md', mi', u, hnext, halloc, hrest⟩
      · exact ⟨[], hbody.lastClone rfl⟩
      · obtain ⟨hcounted, hsame⟩ := hbody.allocFailed hfailed
        exact ⟨[], hcounted.lastClone hsame⟩
      · -- the rest of the loop starts in `u` and links behind `mi`
        have hfresh := hbody.alloc halloc
        have hleft : ∀ s ∈ srcs, u.Sharable (mi' :: users) s ∧ s ≠ mi' ∧ s ≠ mi := by
          intro s hs
          obtain ⟨hshare, hsmi, _⟩ := hsrcs s (by simp [hs])
          have hsmd : s ≠ md := by
            rintro rfl
            exact (List.nodup_cons.mp hchain.nodup).1 hs
          exact ⟨hfresh.sharable (hshare.attachBehind prev hsmi hsmd), hfresh.ne hshare.mem, hsmi⟩
        have htail : Chain u.next (some md') srcs := by
          rw [← hnext]
          refine hchain.2.congr fun s hs => ?_
          obtain ⟨hshare, hsmi, hsprev⟩ := hsrcs s (by simp [hs])
          rw [hfresh.next_eq hshare.mem, attachBehind_next hsprev hsmi]
        obtain ⟨clones, hext⟩ := ih hfresh.counted List.mem_cons_self hfresh.target
          hfresh.refcnt (List.mem_cons_of_mem _ hmi) htail (by simpa using hfuel) hleft hrest
        refine ⟨mi' :: clones, hext.counted.perm List.perm_middle, ⟨rfl, ?_⟩, fun hpm => ?_,
          fun k hk hkmi hkprev => ?_⟩
        · rw [hext.linked (hfresh.ne hmi)]
          exact hext.chain
        · rw [hext.next prev (List.mem_cons_of_mem _ hprev) (hfresh.ne hprev) hpm,
            hfresh.next_eq hprev, attachBehind_next_prev]
        · rw [hext.next k (List.mem_cons_of_mem _ hk) (hfresh.ne hk) hkmi, hfresh.next_eq hk,
            attachBehind_next hkprev hkmi]

end Take

/-- The packets in use after a call that may add one; the call writes to no link of theirs. -/
def World.Grants (w : World n) (users : List (Fin n)) : Option (Fin n) × World n → Prop
  | (none, w') => w'.Counted users ∧ ∀ k ∈ users, w'.next k = w.next k
  | (some m, w') => ∃ segs, w'.Counted (segs ++ users) ∧ Chain w'.next (some m) segs ∧
      ∀ k ∈ users, w'.next k = w.next k

section Grants

variable {w : World n} {users srcs : List (Fin n)} {md : Fin n}

theorem World.Counted.grantsAlloc (h : w.Counted users) (mp : Pool) :
    w.Grants users (rtePktmbufAlloc w mp) := by
  generalize halloc : rtePktmbufAlloc w mp = r
  obtain ⟨_ | m, w'⟩ := r
  · obtain ⟨hcounted, hsame⟩ := h.allocFailed halloc
    exact ⟨hcounted, fun k _ => by rw [World.next, hsame, World.next]⟩
  · have hfresh := h.alloc halloc
    exact ⟨[m], hfresh.counted, ⟨rfl, hfresh.next⟩, fun k hk => hfresh.next_eq hk⟩

/-- The clone of a packet whose segments are direct, as `rte_pktmbuf_attach` asserts, and have room
for one more reference each, which it does not check. -/
theorem World.Counted.grantsClone (h : w.Counted users)
    (hchain : Chain w.next (some md) srcs) (hsrcs : ∀ s ∈ srcs, w.Sharable users s)
    (mp : Pool) : w.Grants users (rtePktmbufClone w md mp) := by
  unfold rtePktmbufClone
  split
  next w' halloc => exact halloc ▸ h.grantsAlloc mp
  next mc u halloc =>
    have hfresh := h.alloc halloc
    have hleft : ∀ s ∈ srcs, u.Sharable (mc :: users) s ∧ s ≠ mc ∧ s ≠ mc := by
      intro s hs
      have hne := hfresh.ne (hsrcs s hs).mem
      exact ⟨hfresh.sharable (hsrcs s hs), hne, hne⟩
    have hlen : srcs.length ≤ n := by
      simpa using hchain.nodup.length_le_card
    have hsrc : Chain u.next (some md) srcs :=
      hchain.congr fun s hs => hfresh.next_eq (hsrcs s hs).mem
    obtain ⟨last, prev, nseg, v, hloop⟩ : ∃ last prev nseg v,
        cloneLoop mp n u mc mc md 0 = (last, prev, nseg, v) := ⟨_, _, _, _, rfl⟩
    obtain ⟨clones, hext⟩ := hfresh.counted.loop List.mem_cons_self hfresh.target
      hfresh.refcnt List.mem_cons_self hsrc hlen hleft hloop
    rw [hloop]
    dsimp only
    generalize hv : (v.modifyPkt prev fun p => { p with next := none }).modifyPkt mc
      (fun p => { p with nbSegs := nseg, pktLen := (u.mbuf md).pkt.pktLen }) = v'
    have hvnext : v'.next = (v.modifyPkt prev fun p => { p with next := none }).next := by
      funext k
      rw [← hv, World.next, modifyPkt_mbuf]
      split <;> rfl
    have hvcounted : v'.Counted ((mc :: clones) ++ users) := by
      rw [← hv]
      exact (hext.counted.perm List.perm_middle).modifyPkt mc _
    have hvchain : Chain v'.next (some mc) (mc :: clones) := by
      rw [hvnext]
      exact hext.chain
    have hkept : ∀ k ∈ users, v'.next k = w.next k := by
      intro k hk
      rw [hvnext, hext.next k (List.mem_cons_of_mem _ hk) (hfresh.ne hk) (hfresh.ne hk),
        hfresh.next_eq hk]
    cases last with
    | none =>
      obtain ⟨hfreed, hsame⟩ := hvcounted.free hvchain
      exact ⟨hfreed, fun k hk => by rw [hsame]; exact hkept k hk⟩
    | some _ => exact ⟨mc :: clones, hvcounted, hvchain, hkept⟩

/-- The link and the fields of a new header count for nothing. -/
theorem World.Counted.linkHeader (h : w.Counted users) (hdr pkt : Fin n) :
    (linkHeader w hdr pkt).Counted users := by
  have hlinked := linkHeader_countsOff w hdr pkt
  refine h.congr (fun x => ?_) (fun x => ?_) rfl (h.ledger.congr rfl rfl)
  · by_cases hx : x = hdr
    · rw [hx, World.target, linkHeader_mbuf]
      rfl
    · exact hlinked.bufAddr (by simpa using hx)
  · by_cases hx : x = hdr
    · rw [hx, linkHeader_mbuf]
    · rw [LearningSwitch.linkHeader, modify_mbuf_ne _ _ hx]

theorem linkHeader_next (w : World n) (hdr pkt : Fin n) {k : Fin n} (hk : k ≠ hdr) :
    (linkHeader w hdr pkt).next k = w.next k := by
  rw [World.next, (linkHeader_countsOff w hdr pkt).pkt (by simpa using hk), World.next]

/-- With `use_clone`, a header in front of a clone. -/
theorem World.Counted.grantsDuplicate (h : w.Counted users)
    (hchain : Chain w.next (some md) srcs) (hsrcs : ∀ s ∈ srcs, w.Sharable users s)
    {useClone : UInt32} (huse : useClone ≠ 0) : w.Grants users (pktDuplicate w md useClone) := by
  unfold pktDuplicate
  split
  next w' halloc => exact halloc ▸ h.grantsAlloc .header
  next hdr u halloc =>
    have hfresh := h.alloc halloc
    have hclone : u.Grants (hdr :: users) (rtePktmbufClone u md .clone) := by
      have hsrc : Chain u.next (some md) srcs :=
        hchain.congr fun s hs => hfresh.next_eq (hsrcs s hs).mem
      exact hfresh.counted.grantsClone hsrc (fun s hs => hfresh.sharable (hsrcs s hs)) .clone
    rw [if_pos huse]
    split
    next v hfailed =>
      rw [hfailed] at hclone
      obtain ⟨hv, hvnext⟩ := hclone
      have hhdr : Chain v.next (some hdr) [hdr] := by
        refine ⟨rfl, ?_⟩
        rw [hvnext hdr List.mem_cons_self]
        exact hfresh.next
      obtain ⟨hfreed, hsame⟩ := World.Counted.free (show v.Counted ([hdr] ++ users) from hv) hhdr
      refine ⟨hfreed, fun k hk => ?_⟩
      rw [hsame, hvnext k (List.mem_cons_of_mem _ hk), hfresh.next_eq hk]
    next pkt v hcloned =>
      rw [hcloned] at hclone
      obtain ⟨segs, hv, hvchain, hvnext⟩ := hclone
      have hsegs : ∀ k ∈ segs, k ≠ hdr := by
        rintro k hk rfl
        exact (List.disjoint_of_nodup_append hv.attached.nodup) hk List.mem_cons_self
      refine ⟨hdr :: segs, (hv.linkHeader hdr pkt).perm List.perm_middle, ⟨rfl, ?_⟩, fun k hk => ?_⟩
      · rw [World.next, linkHeader_mbuf]
        exact hvchain.congr fun k hk => linkHeader_next v hdr pkt (hsegs k hk)
      · rw [linkHeader_next v hdr pkt (hfresh.ne hk), hvnext k (List.mem_cons_of_mem _ hk),
          hfresh.next_eq hk]

end Grants

end LearningSwitch
