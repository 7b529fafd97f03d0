import Mathlib.Data.Multiset.AddSub
import Mathlib.Algebra.Order.Group.Multiset
import Mathlib.Tactic.Abel
import LearningSwitch.Io

namespace LearningSwitch

open LinkedChain

variable {n : Nat}

/-- Out of its pool, with the one reference of whoever holds it. -/
structure World.Live (w : World n) (x : Fin n) : Prop where
  pooled : w.pooled x = false
  refcnt : (w.mbuf x).refcnt = 1

/-- `held` are the first mbufs of the packets that somebody will still send or free, `lent` those
that a header may be linked to. Chains of received packets belong to one holder; header chains
may share what they are linked to. -/
structure World.Owned (w : World n) (held : Multiset (Option (Fin n))) (lent : List (Fin n)) :
    Prop where
  nodup : held.Nodup
  notNull : none ∉ held
  outside : ∀ x ∈ lent, some x ∉ held
  direct : ∀ x, (w.mbuf x).bufAddr = x
  chain : ∀ x, some x ∈ held ∨ x ∈ lent →
    ∃ segs, Chain w.next (some x) segs ∧ ∀ y ∈ segs, w.Live y
  apart : ∀ x y, some x ∈ held → (w.mbuf x).pool ≠ .header → some y ∈ held ∨ y ∈ lent → x ≠ y →
    ∀ segs segs', Chain w.next (some x) segs → Chain w.next (some y) segs' → segs.Disjoint segs'

/-- Nothing that was already in its pool is freed on the way from `w` to `w'`, and no header. -/
structure World.CleanTo (w w' : World n) : Prop where
  pool : ∀ x, (w'.mbuf x).pool = (w.mbuf x).pool
  log : ∃ es, w'.log = w.log ++ es ∧ (∀ x, .freeSeg x true ∉ es) ∧
    ∀ r, .free r ∈ es → ∃ x, r = some x ∧ (w.mbuf x).pool ≠ .header

theorem World.CleanTo.refl (w : World n) : w.CleanTo w :=
  ⟨fun _ => rfl, [], by simp, by simp, by simp⟩

theorem World.CleanTo.trans {u v w : World n} (h : u.CleanTo v) (h' : v.CleanTo w) :
    u.CleanTo w := by
  obtain ⟨es, hes, hseg, hfree⟩ := h.log
  obtain ⟨es', hes', hseg', hfree'⟩ := h'.log
  refine ⟨fun x => (h'.pool x).trans (h.pool x), es ++ es', by rw [hes', hes, List.append_assoc],
    fun x hx => ?_, fun r hr => ?_⟩
  · rcases List.mem_append.mp hx with hx | hx
    · exact hseg x hx
    · exact hseg' x hx
  · rcases List.mem_append.mp hr with hr | hr
    · exact hfree r hr
    · obtain ⟨x, rfl, hx⟩ := hfree' r hr
      exact ⟨x, rfl, by rwa [h.pool] at hx⟩

theorem World.Owned.congr {w w' : World n} {held : Multiset (Option (Fin n))} {lent : List (Fin n)}
    (h : w.Owned held lent) (hmbuf : w'.mbuf = w.mbuf) (hpooled : w'.pooled = w.pooled) :
    w'.Owned held lent := by
  have hnext : w'.next = w.next := funext fun x => by rw [World.next, World.next, hmbuf]
  refine ⟨h.nodup, h.notNull, h.outside, by rw [hmbuf]; exact h.direct, fun x hx => ?_, ?_⟩
  · obtain ⟨segs, hchain, hlive⟩ := h.chain x hx
    refine ⟨segs, by rwa [hnext], fun y hy => ⟨?_, ?_⟩⟩
    · rw [hpooled]; exact (hlive y hy).pooled
    · rw [hmbuf]; exact (hlive y hy).refcnt
  · rw [hnext, hmbuf]
    exact h.apart

theorem World.Owned.mono {w : World n} {held held' : Multiset (Option (Fin n))}
    {lent lent' : List (Fin n)} (h : w.Owned held lent) (hle : held' ≤ held) (hsub : lent' ⊆ lent) :
    w.Owned held' lent' := by
  have hmem : ∀ {r}, r ∈ held' → r ∈ held := fun hr => Multiset.mem_of_le hle hr
  refine ⟨Multiset.nodup_of_le hle h.nodup, fun hn => h.notNull (hmem hn),
    fun x hx hx' => h.outside x (hsub hx) (hmem hx'), h.direct, fun x hx => ?_, ?_⟩
  · exact h.chain x (hx.imp hmem (@hsub x))
  · intro x y hx hpool hy
    exact h.apart x y (hmem hx) hpool (hy.imp hmem (@hsub y))

/-- A held packet may be lent instead: headers linked to it take over its segments. -/
theorem World.Owned.lend {w : World n} {held : Multiset (Option (Fin n))} {x : Fin n}
    (h : w.Owned (some x ::ₘ held) []) : w.Owned held [x] := by
  have hx := (Multiset.nodup_cons.mp h.nodup).1
  have hin : some x ∈ some x ::ₘ held := Multiset.mem_cons_self _ _
  have hmem : ∀ {r}, r ∈ held → r ∈ some x ::ₘ held := fun hr => Multiset.mem_cons_of_mem hr
  refine ⟨(Multiset.nodup_cons.mp h.nodup).2, fun hn => h.notNull (hmem hn), ?_, h.direct,
    fun y hy => h.chain y ?_, fun y z hy hpool hz => h.apart y z (hmem hy) hpool ?_⟩
  · intro y hy
    rwa [List.mem_singleton.mp hy]
  · rcases hy with hy | hy
    · exact Or.inl (hmem hy)
    · rw [List.mem_singleton.mp hy]
      exact Or.inl hin
  · rcases hz with hz | hz
    · exact Or.inl (hmem hz)
    · rw [List.mem_singleton.mp hz]
      exact Or.inl hin

theorem freeSeg_live {w : World n} {x : Fin n} (h : w.Live x) (hd : (w.mbuf x).bufAddr = x) :
    rtePktmbufFreeSeg w x =
      rteMempoolPut (rteMbufRefcntSet (w.emit (.freeSeg x false)) x 0) x := by
  have href : ((w.emit (.freeSeg x false)).mbuf x).refcnt = 1 := h.refcnt
  have hdirect : ((w.emit (.freeSeg x false)).mbuf x).bufAddr = x := hd
  rw [rtePktmbufFreeSeg, h.pooled]
  simp only [if_pos href, releaseSeg, hdirect, ne_eq, not_true_eq_false, if_false, rteMbufRawFree]

/-- The mbufs outside `segs` are untouched, and no mbuf changes its pool or its data room. -/
structure World.SameOff (w : World n) (segs : List (Fin n)) (w' : World n) : Prop where
  mbuf : ∀ k, k ∉ segs → w'.mbuf k = w.mbuf k
  pooled : ∀ k, k ∉ segs → w'.pooled k = w.pooled k
  pool : ∀ k, (w'.mbuf k).pool = (w.mbuf k).pool
  direct : ∀ k, (w'.mbuf k).bufAddr = (w.mbuf k).bufAddr

theorem World.SameOff.live {w w' : World n} {segs : List (Fin n)} (h : w.SameOff segs w')
    {k : Fin n} (hk : k ∉ segs) (hlive : w.Live k) : w'.Live k :=
  ⟨(h.pooled k hk).trans hlive.pooled, by rw [h.mbuf k hk]; exact hlive.refcnt⟩

theorem World.SameOff.chain {w w' : World n} {segs : List (Fin n)} (h : w.SameOff segs w')
    {x : Fin n} {l : List (Fin n)} (hl : ∀ k ∈ l, k ∉ segs) (hc : Chain w.next (some x) l) :
    Chain w'.next (some x) l :=
  hc.congr fun k hk => by rw [World.next, World.next, h.mbuf k (hl k hk)]

theorem World.SameOff.append {u v w : World n} {segs segs' : List (Fin n)}
    (h : u.SameOff segs v) (h' : v.SameOff segs' w) : u.SameOff (segs ++ segs') w := by
  refine ⟨fun k hk => ?_, fun k hk => ?_, fun k => (h'.pool k).trans (h.pool k),
    fun k => (h'.direct k).trans (h.direct k)⟩
  · rw [List.mem_append, not_or] at hk
    rw [h'.mbuf k hk.2, h.mbuf k hk.1]
  · rw [List.mem_append, not_or] at hk
    rw [h'.pooled k hk.2, h.pooled k hk.1]

structure World.SegsFreed (w : World n) (segs : List (Fin n)) (w' : World n) : Prop
    extends World.SameOff w segs w' where
  next : w'.next = w.next
  log : ∃ es, w'.log = w.log ++ es ∧ (∀ x, .freeSeg x true ∉ es) ∧ ∀ r, .free r ∉ es

theorem segFreed_live {w : World n} {x : Fin n} (h : w.Live x) (hd : (w.mbuf x).bufAddr = x) :
    w.SegsFreed [x] (rtePktmbufFreeSeg w x) := by
  have hnext := (freeSeg_freedTo w x).next
  rw [freeSeg_live h hd] at hnext ⊢
  have hmbuf : ∀ k, (rteMempoolPut (rteMbufRefcntSet (w.emit (.freeSeg x false)) x 0) x).mbuf k =
      if k = x then { w.mbuf k with refcnt := 0 } else w.mbuf k := by
    intro k
    by_cases hk : k = x
    · subst hk; simp [rteMempoolPut, rteMbufRefcntSet, World.modify, World.emit]
    · simp [rteMempoolPut, rteMbufRefcntSet, World.modify, World.emit, hk]
  refine ⟨⟨fun k hk => ?_, fun k hk => ?_, fun k => ?_, fun k => ?_⟩, hnext,
    [.freeSeg x false, .put x], ?_, by simp, by simp⟩
  · rw [hmbuf, if_neg (by simpa using hk)]
  · exact Function.update_of_ne (by simpa using hk) _ _
  · rw [hmbuf]; split <;> rfl
  · rw [hmbuf]; split <;> rfl
  · simp [rteMempoolPut, World.emit, rteMbufRefcntSet, World.modify]

theorem World.SegsFreed.cons {u v w : World n} {x : Fin n} {segs : List (Fin n)}
    (h : u.SegsFreed [x] v) (h' : v.SegsFreed segs w) : u.SegsFreed (x :: segs) w := by
  obtain ⟨es, hes, hseg, hfree⟩ := h.log
  obtain ⟨es', hes', hseg', hfree'⟩ := h'.log
  refine ⟨h.toSameOff.append h'.toSameOff, h'.next.trans h.next, es ++ es',
    by rw [hes', hes, List.append_assoc], ?_, ?_⟩
  · simp [hseg, hseg']
  · simp [hfree, hfree']

theorem foldl_freeSeg_live {segs : List (Fin n)} {w : World n} (hnodup : segs.Nodup)
    (hlive : ∀ x ∈ segs, w.Live x) (hd : ∀ x, (w.mbuf x).bufAddr = x) :
    w.SegsFreed segs (segs.foldl rtePktmbufFreeSeg w) := by
  induction segs generalizing w with
  | nil =>
    exact ⟨⟨fun _ _ => rfl, fun _ _ => rfl, fun _ => rfl, fun _ => rfl⟩, rfl, [], by simp, by simp,
      by simp⟩
  | cons x segs ih =>
    obtain ⟨hx, hnodup'⟩ := List.nodup_cons.mp hnodup
    have hstep := segFreed_live (hlive x List.mem_cons_self) (hd x)
    refine hstep.cons (ih hnodup' (fun y hy => ?_) fun y => (hstep.direct y).trans (hd y))
    have hne : y ∉ [x] := by
      rw [List.mem_singleton]
      rintro rfl
      exact hx hy
    exact hstep.live hne (hlive y (List.mem_cons_of_mem x hy))

/-- Freeing a received packet takes its segments, and nobody else's, out of circulation. -/
theorem World.Owned.free {w : World n} {held : Multiset (Option (Fin n))} {lent : List (Fin n)}
    {x : Fin n} (h : w.Owned (some x ::ₘ held) lent) (hpool : (w.mbuf x).pool ≠ .header) :
    (rtePktmbufFree w (some x)).Owned held lent ∧ w.CleanTo (rtePktmbufFree w (some x)) := by
  have hin : some x ∈ some x ::ₘ held := Multiset.mem_cons_self _ _
  have hmem : ∀ {r}, r ∈ held → r ∈ some x ::ₘ held := fun hr => Multiset.mem_cons_of_mem hr
  obtain ⟨segs, hchain, hlive⟩ := h.chain x (Or.inl hin)
  have hfreed : (w.emit (.free (some x))).SegsFreed segs (rtePktmbufFree w (some x)) := by
    rw [free_eq_foldl hchain]
    exact foldl_freeSeg_live hchain.nodup (fun y hy => ⟨(hlive y hy).pooled, (hlive y hy).refcnt⟩)
      h.direct
  have hnext : (rtePktmbufFree w (some x)).next = w.next := hfreed.next
  refine ⟨⟨(Multiset.nodup_cons.mp h.nodup).2, fun hn => h.notNull (hmem hn),
    fun y hy hy' => h.outside y hy (hmem hy'), fun y => (hfreed.direct y).trans (h.direct y),
    fun y hy => ?_, fun y z hy hp hz => ?_⟩, hfreed.pool, ?_⟩
  · have hy' : some y ∈ some x ::ₘ held ∨ y ∈ lent := hy.imp_left hmem
    obtain ⟨segs', hchain', hlive'⟩ := h.chain y hy'
    have hne : x ≠ y := by
      rintro rfl
      rcases hy with hy | hy
      · exact (Multiset.nodup_cons.mp h.nodup).1 hy
      · exact h.outside _ hy hin
    have hdisj := h.apart x y hin hpool hy' hne segs segs' hchain hchain'
    refine ⟨segs', by rwa [hnext], fun z hz => ?_⟩
    have hz' : (w.emit (.free (some x))).Live z := ⟨(hlive' z hz).pooled, (hlive' z hz).refcnt⟩
    exact hfreed.live (fun hs => hdisj hs hz) hz'
  · rw [hnext]
    exact h.apart y z (hmem hy) (by rwa [hfreed.pool y] at hp) (hz.imp_left hmem)
  · obtain ⟨es, hes, hseg, hfree⟩ := hfreed.log
    refine ⟨.free (some x) :: es, by rw [hes]; simp [World.emit], by simpa using hseg, fun r hr => ?_⟩
    rcases List.mem_cons.mp hr with hr | hr
    · cases hr
      exact ⟨x, rfl, hpool⟩
    · exact absurd hr (hfree r)

/-- What is held lies outside the pools, so its chain survives when `new` is taken from them. -/
theorem World.Owned.keep {w w' : World n} {held : Multiset (Option (Fin n))} {lent new : List (Fin n)}
    {y : Fin n} (h : w.Owned held lent) (hnew : ∀ k ∈ new, w.pooled k = true)
    (hsame : w.SameOff new w') (hy : some y ∈ held ∨ y ∈ lent) :
    ∃ segs, Chain w.next (some y) segs ∧ (∀ k ∈ segs, w.Live k) ∧ (∀ k ∈ segs, k ∉ new) ∧
      Chain w'.next (some y) segs := by
  obtain ⟨segs, hc, hl⟩ := h.chain y hy
  have hoff : ∀ k ∈ segs, k ∉ new := fun k hk => not_mem_of_inUse (hl k hk).pooled hnew
  exact ⟨segs, hc, hl, hoff, hsame.chain hoff hc⟩

theorem World.Owned.ne_of_pooled {w : World n} {held : Multiset (Option (Fin n))}
    {lent : List (Fin n)} {x y : Fin n} (h : w.Owned held lent) (hx : w.pooled x = true)
    (hy : some y ∈ held ∨ y ∈ lent) : y ≠ x := by
  obtain ⟨segs, hc, hl⟩ := h.chain y hy
  obtain ⟨_, rfl, _⟩ := hc.head
  have huse : w.pooled y = false := (hl y List.mem_cons_self).pooled
  exact ne_of_inUse huse hx

theorem mem_cons_held {held : Multiset (Option (Fin n))} {lent : List (Fin n)} {x y : Fin n}
    (hy : some y ∈ some x ::ₘ held ∨ y ∈ lent) : y = x ∨ (some y ∈ held ∨ y ∈ lent) := by
  rcases hy with hy | hy
  · rcases Multiset.mem_cons.mp hy with hy | hy
    · exact Or.inl (Option.some.inj hy)
    · exact Or.inr (Or.inl hy)
  · exact Or.inr (Or.inr hy)

/-- A new packet is held when it takes its first segments `new` from the pools and shares the rest
with nobody, or, a header chain, with no holder of a received packet. -/
theorem World.Owned.add {w w' : World n} {held : Multiset (Option (Fin n))} {lent : List (Fin n)}
    {x : Fin n} {new shared : List (Fin n)} (h : w.Owned held lent)
    (hnew : ∀ k ∈ new, w.pooled k = true) (hsame : w.SameOff new w') (hx : x ∈ new)
    (hlive : ∀ k ∈ new ++ shared, w'.Live k) (hchain : Chain w'.next (some x) (new ++ shared))
    (hreceived : (w.mbuf x).pool ≠ .header → shared = [])
    (hshared : ∀ y, some y ∈ held → (w.mbuf y).pool ≠ .header →
      ∀ segs, Chain w.next (some y) segs → segs.Disjoint shared) :
    w'.Owned (some x ::ₘ held) lent := by
  have hold : ∀ y, some y ∈ held ∨ y ∈ lent → y ≠ x := fun y hy => h.ne_of_pooled (hnew x hx) hy
  refine ⟨Multiset.nodup_cons.mpr ⟨fun hm => hold x (Or.inl hm) rfl, h.nodup⟩, ?_, ?_,
    fun y => (hsame.direct y).trans (h.direct y), fun y hy => ?_, ?_⟩
  · rw [Multiset.mem_cons, not_or]
    exact ⟨by simp, h.notNull⟩
  · intro y hy hm
    rcases Multiset.mem_cons.mp hm with hm | hm
    · exact hold y (Or.inr hy) (Option.some.inj hm)
    · exact h.outside y hy hm
  · rcases mem_cons_held hy with rfl | hy
    · exact ⟨new ++ shared, hchain, hlive⟩
    · obtain ⟨segs, _, hl, hoff, hc'⟩ := h.keep hnew hsame hy
      exact ⟨segs, hc', fun k hk => hsame.live (hoff k hk) (hl k hk)⟩
  · intro y z hy hp hz hne segs segs' hc hc'
    rw [hsame.pool y] at hp
    rcases mem_cons_held (Or.inl hy) with rfl | hy'
    · rcases mem_cons_held hz with rfl | hz
      · exact absurd rfl hne
      · obtain ⟨segs'', _, _, hoff, hc''⟩ := h.keep hnew hsame hz
        rw [hc.unique hchain, hreceived hp, List.append_nil, hc'.unique hc'']
        exact fun k hk hk' => hoff k hk' hk
    · have hyheld : some y ∈ held := by
        rcases Multiset.mem_cons.mp hy with hy | hy
        · exact absurd (Option.some.inj hy) (hold y hy')
        · exact hy
      obtain ⟨segsy, hcy, _, hoffy, hcy'⟩ := h.keep hnew hsame hy'
      rw [hc.unique hcy']
      rcases mem_cons_held hz with rfl | hz
      · rw [hc'.unique hchain]
        intro k hk hk'
        rcases List.mem_append.mp hk' with hk' | hk'
        · exact hoffy k hk hk'
        · exact hshared y hyheld hp segsy hcy hk hk'
      · obtain ⟨segsz, hcz, _, _, hcz'⟩ := h.keep hnew hsame hz
        rw [hc'.unique hcz']
        exact h.apart y z hyheld hp hz hne segsy segsz hcy hcz

theorem duplicated_sameOff (w : World n) (hdr pkt : Fin n) :
    w.SameOff [hdr] (duplicated w hdr pkt) := by
  refine ⟨fun k hk => duplicated_mbuf_ne w hdr pkt (by simpa using hk), fun k hk => ?_, fun k => ?_,
    fun k => ?_⟩
  · rw [duplicated_pooled]
    exact Function.update_of_ne (by simpa using hk) _ _
  · by_cases hk : k = hdr
    · rw [hk]; exact (duplicated_header w hdr pkt).1
    · rw [duplicated_mbuf_ne w hdr pkt hk]
  · by_cases hk : k = hdr
    · rw [hk]; exact (duplicated_header w hdr pkt).2.1
    · rw [duplicated_mbuf_ne w hdr pkt hk]

theorem duplicated_live (w : World n) (hdr pkt : Fin n) : (duplicated w hdr pkt).Live hdr := by
  exact ⟨by simp, (duplicated_header w hdr pkt).2.2⟩

theorem World.Owned.duplicate {w : World n} {held : Multiset (Option (Fin n))} {hdr m : Fin n}
    (h : w.Owned held [m]) (hpooled : w.pooled hdr = true) (hpool : (w.mbuf hdr).pool = .header) :
    (duplicated w hdr m).Owned (some hdr ::ₘ held) [m] ∧ w.CleanTo (duplicated w hdr m) := by
  have hsame := duplicated_sameOff w hdr m
  obtain ⟨segs, hchain, hlive⟩ := h.chain m (Or.inr List.mem_cons_self)
  have hoff : ∀ k ∈ segs, k ∉ [hdr] := by
    intro k hk hkh
    have hk' := (hlive k hk).pooled
    rw [List.mem_singleton.mp hkh, hpooled] at hk'
    cases hk'
  have hlive' : ∀ k ∈ [hdr] ++ segs, (duplicated w hdr m).Live k := by
    intro k hk
    rcases List.mem_append.mp hk with hk | hk
    · rw [List.mem_singleton.mp hk]
      exact duplicated_live w hdr m
    · exact hsame.live (hoff k hk) (hlive k hk)
  have hchain' : Chain (duplicated w hdr m).next (some hdr) ([hdr] ++ segs) := by
    refine ⟨rfl, ?_⟩
    rw [duplicated_next_self]
    exact hsame.chain hoff hchain
  refine ⟨h.add (by simpa using hpooled) hsame List.mem_cons_self hlive' hchain'
    (fun hp => absurd hpool hp) (fun y hy hp segs' hc => ?_), hsame.pool,
    [.get hdr], rfl, by simp, by simp⟩
  refine h.apart y m hy hp (Or.inr List.mem_cons_self) ?_ segs' segs hc hchain
  rintro rfl
  exact h.outside y List.mem_cons_self hy

theorem rxSeg_sameOff (w : World n) (m : Fin n) (bytes : List UInt8) (pkt : Pktmbuf n) :
    w.SameOff [m] (rxSeg w m bytes pkt) := by
  refine ⟨fun k hk => modify_mbuf_ne _ _ (by simpa using hk),
    fun k hk => Function.update_of_ne (by simpa using hk) _ _, fun k => ?_, fun k => ?_⟩
  · by_cases hk : k = m
    · subst hk; simp [rxSeg, World.emit]
    · exact congrArg Mbuf.pool (modify_mbuf_ne _ _ hk)
  · by_cases hk : k = m
    · subst hk; simp [rxSeg, World.emit]
    · exact congrArg Mbuf.bufAddr (modify_mbuf_ne _ _ hk)

theorem rxSeg_live (w : World n) (m : Fin n) (bytes : List UInt8) (pkt : Pktmbuf n) :
    (rxSeg w m bytes pkt).Live m :=
  ⟨Function.update_self .., by simp [rxSeg]⟩

theorem rxSeg_next (w : World n) (m : Fin n) (bytes : List UInt8) (pkt : Pktmbuf n) :
    (rxSeg w m bytes pkt).next m = pkt.next := by
  simp [World.next, rxSeg]

theorem rxChain_spec (w : World n) (inPort : UInt8) {segs : List (Fin n × List UInt8)}
    (hnodup : (segs.map Prod.fst).Nodup) :
    w.SameOff (segs.map Prod.fst) (rxChain w inPort segs) ∧
      (∀ k ∈ segs.map Prod.fst, (rxChain w inPort segs).Live k) ∧
      Chain (rxChain w inPort segs).next (segs.map Prod.fst).head? (segs.map Prod.fst) ∧
      ∃ es, (rxChain w inPort segs).log = w.log ++ es ∧ (∀ x, .freeSeg x true ∉ es) ∧
        ∀ r, .free r ∉ es := by
  induction segs with
  | nil =>
    exact ⟨⟨fun _ _ => rfl, fun _ _ => rfl, fun _ => rfl, fun _ => rfl⟩, by simp, rfl, [],
      (List.append_nil _).symm, by simp, by simp⟩
  | cons seg segs ih =>
    obtain ⟨m, bytes⟩ := seg
    rw [List.map_cons] at hnodup ⊢
    obtain ⟨hm, hnodup'⟩ := List.nodup_cons.mp hnodup
    obtain ⟨hsame, hlive, hchain, es, hlog, hseg, hfree⟩ := ih hnodup'
    have hoff : ∀ k ∈ segs.map Prod.fst, k ∉ [m] := by
      intro k hk hkm
      rw [List.mem_singleton.mp hkm] at hk
      exact hm hk
    have hcons : ∃ pkt, rxChain w inPort ((m, bytes) :: segs) =
        rxSeg (rxChain w inPort segs) m bytes pkt ∧ pkt.next = (segs.map Prod.fst).head? :=
      ⟨_, rfl, List.head?_map.symm⟩
    obtain ⟨pkt, heq, hnext⟩ := hcons
    have hstep := rxSeg_sameOff (rxChain w inPort segs) m bytes pkt
    rw [heq]
    refine ⟨?_, fun k hk => ?_, ?_, es ++ [.get m], ?_, by simpa using hseg, by simpa using hfree⟩
    · have happ := hsame.append hstep
      refine ⟨fun k hk => happ.mbuf k ?_, fun k hk => happ.pooled k ?_, happ.pool, happ.direct⟩
      · simpa [or_comm] using hk
      · simpa [or_comm] using hk
    · rcases List.mem_cons.mp hk with rfl | hk
      · exact rxSeg_live _ _ _ _
      · exact hstep.live (hoff k hk) (hlive k hk)
    · refine ⟨rfl, ?_⟩
      rw [rxSeg_next, hnext]
      refine hchain.congr fun k hk => ?_
      rw [World.next, World.next, hstep.mbuf k (hoff k hk)]
    · show (rxChain w inPort segs).log ++ [.get m] = w.log ++ (es ++ [.get m])
      rw [hlog, List.append_assoc]

theorem rxChain_inFlight (w : World n) (inPort : UInt8) (segs : List (Fin n × List UInt8)) :
    (rxChain w inPort segs).inFlight = w.inFlight := by
  induction segs with
  | nil => rfl
  | cons seg segs ih => exact ih

theorem World.Owned.receive {w : World n} {held : Multiset (Option (Fin n))} {inPort : UInt8}
    {m : Fin n} {bytes : List UInt8} {segs : List (Fin n × List UInt8)} (h : w.Owned held [])
    (hnodup : (((m, bytes) :: segs).map Prod.fst).Nodup)
    (hpooled : ∀ k ∈ ((m, bytes) :: segs).map Prod.fst, w.pooled k = true) :
    (rxChain w inPort ((m, bytes) :: segs)).Owned (some m ::ₘ held) [] ∧
      w.CleanTo (rxChain w inPort ((m, bytes) :: segs)) := by
  obtain ⟨hsame, hlive, hchain, es, hlog, hseg, hfree⟩ := rxChain_spec w inPort hnodup
  refine ⟨h.add hpooled hsame List.mem_cons_self ?_ ?_ (fun _ => rfl) (fun _ _ _ _ _ => by simp),
    hsame.pool, es, hlog, hseg, fun r hr => absurd hr (hfree r)⟩
  · rwa [List.append_nil]
  · rwa [List.append_nil]

theorem World.CleanTo.emit (w : World n) {e : Event n} (hseg : ∀ x, e ≠ .freeSeg x true)
    (hfree : ∀ r, e ≠ .free r) : w.CleanTo (w.emit e) := by
  refine ⟨fun _ => rfl, [e], rfl, fun x hx => ?_, fun r hr => ?_⟩
  · exact hseg x (List.mem_singleton.mp hx).symm
  · exact absurd (List.mem_singleton.mp hr).symm (hfree r)

theorem World.Owned.freeRejected {w : World n} {held : Multiset (Option (Fin n))}
    {lent : List (Fin n)} (port : UInt8) {pkts : List (Option (Fin n))}
    (h : w.Owned (↑pkts + held) lent) (hpool : ∀ x, some x ∈ pkts → (w.mbuf x).pool ≠ .header) :
    (LearningSwitch.freeRejected w port pkts).Owned held lent ∧
      w.CleanTo (LearningSwitch.freeRejected w port pkts) := by
  induction pkts generalizing w with
  | nil =>
    rw [Multiset.coe_nil, Multiset.zero_add] at h
    exact ⟨h, World.CleanTo.refl w⟩
  | cons r rs ih =>
    rw [← Multiset.cons_coe, Multiset.cons_add] at h
    cases r with
    | none => exact absurd (Multiset.mem_cons_self _ _) h.notNull
    | some x =>
      have hemit : (w.emit (.reject port (some x))).Owned (some x ::ₘ (↑rs + held)) lent :=
        h.congr rfl rfl
      obtain ⟨hfree, hclean⟩ := hemit.free (hpool x List.mem_cons_self)
      obtain ⟨hrest, hclean'⟩ := ih hfree fun y hy => by
        rw [hclean.pool]
        exact hpool y (List.mem_cons_of_mem _ hy)
      have hreject := World.CleanTo.emit w (e := .reject port (some x)) (by simp) (by simp)
      exact ⟨hrest, (hreject.trans hclean).trans hclean'⟩

def World.rejects (w : World n) (pkts : List (Option (Fin n))) : List (Option (Fin n)) :=
  pkts.drop (w.txRoom w.bursts)

/-- The driver takes every header of the burst. -/
def World.KeepsHeaders (w : World n) (pkts : List (Option (Fin n))) : Prop :=
  ∀ x, some x ∈ w.rejects pkts → (w.mbuf x).pool ≠ .header

instance (w : World n) (pkts : List (Option (Fin n))) : Decidable (w.KeepsHeaders pkts) :=
  inferInstanceAs (Decidable (∀ _, _ → _))

theorem burstWorld_inFlight (w : World n) (port : UInt8) (queueid : UInt16)
    (pkts : List (Option (Fin n))) :
    (burstWorld w port queueid pkts).inFlight = w.inFlight ++ pkts.take (w.txRoom w.bursts) := by
  have hfree : ∀ (w : World n) (rs : List (Option (Fin n))),
      (LearningSwitch.freeRejected w port rs).inFlight = w.inFlight := by
    intro w rs
    induction rs generalizing w with
    | nil => rfl
    | cons r rs ih =>
      rw [LearningSwitch.freeRejected, ih]
      exact (free_freedTo (w.emit (.reject port r)) r).inFlight
  rw [burstWorld, hfree]
  show w.inFlight ++ pkts.take (min pkts.length (w.txRoom w.bursts)) = _
  rw [min_comm, ← List.take_eq_take_min]

/-- A burst that keeps the headers moves what was taken into flight and drops the rest. -/
theorem World.Owned.burst {w : World n} {held : Multiset (Option (Fin n))} {lent : List (Fin n)}
    (port : UInt8) (queueid : UInt16) {pkts : List (Option (Fin n))}
    (h : w.Owned (↑w.inFlight + ↑pkts + held) lent) (hkeeps : w.KeepsHeaders pkts) :
    (burstWorld w port queueid pkts).Owned
        (↑(burstWorld w port queueid pkts).inFlight + held) lent ∧
      w.CleanTo (burstWorld w port queueid pkts) := by
  have hdrop : pkts.drop (rteEthTxBurst w port queueid pkts).1 = w.rejects pkts := by
    show pkts.drop (min pkts.length (w.txRoom w.bursts)) = pkts.drop (w.txRoom w.bursts)
    rcases Nat.le_total pkts.length (w.txRoom w.bursts) with hle | hle
    · rw [min_eq_left hle, List.drop_length, List.drop_eq_nil_of_le hle]
    · rw [min_eq_right hle]
  have hsplit : (↑w.inFlight + ↑pkts + held : Multiset (Option (Fin n))) =
      ↑(w.rejects pkts) + (↑(w.inFlight ++ pkts.take (w.txRoom w.bursts)) + held) := by
    rw [← Multiset.coe_add]
    conv_lhs => rw [← List.take_append_drop (w.txRoom w.bursts) pkts, ← Multiset.coe_add]
    rw [World.rejects]
    abel
  have hburst : (rteEthTxBurst w port queueid pkts).2.Owned
      (↑(w.rejects pkts) + (↑(w.inFlight ++ pkts.take (w.txRoom w.bursts)) + held)) lent := by
    rw [← hsplit]
    exact h.congr rfl rfl
  have haccept : w.CleanTo (rteEthTxBurst w port queueid pkts).2 := by
    refine ⟨fun _ => rfl, _, rfl, fun x hx => ?_, fun r hr => ?_⟩
    · obtain ⟨m, _, hm⟩ := List.mem_map.mp hx
      cases hm
    · obtain ⟨m, _, hm⟩ := List.mem_map.mp hr
      cases hm
  obtain ⟨hfree, hclean⟩ := hburst.freeRejected port hkeeps
  rw [burstWorld_inFlight, burstWorld, hdrop]
  exact ⟨hfree, haccept.trans hclean⟩

end LearningSwitch
