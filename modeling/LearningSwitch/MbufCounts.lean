import LearningSwitch.Ownership
import LearningSwitch.PktClone
import LearningSwitch.RefCount

namespace LearningSwitch

open LinkedChain RefCount

variable {n : Nat}

/-- The log of the mempools: every mbuf that was given out came back once, unless it is still out,
and no segment was freed that lay in its pool. -/
structure World.Ledger (w : World n) : Prop where
  balance : ∀ x, w.log.count (.get x) = w.log.count (.put x) + if w.pooled x then 0 else 1
  clean : ∀ x, .freeSeg x true ∉ w.log

def World.target (w : World n) (x : Fin n) : Fin n :=
  (w.mbuf x).bufAddr

/-- The counters of all mbufs, where `users` are the segments of the packets in use: each holds
itself and the mbuf that it is attached to, and what nobody holds is in its pool. -/
structure World.Counted (w : World n) (users : List (Fin n)) : Prop where
  attached : Attached w.target users
  refcnt : ∀ x, (w.mbuf x).refcnt.toNat = refs w.target users x
  pooled : ∀ x, w.pooled x = true ↔ (w.mbuf x).refcnt = 0
  ledger : w.Ledger

section Ledger

variable {w w' : World n} {m : Fin n}

theorem World.Ledger.congr (h : w.Ledger) (hlog : w'.log = w.log) (hpooled : w'.pooled = w.pooled) :
    w'.Ledger := by
  refine ⟨fun x => ?_, fun x => ?_⟩
  · rw [hlog, hpooled]
    exact h.balance x
  · rw [hlog]
    exact h.clean x

theorem World.Ledger.emit (h : w.Ledger) {e : Event n}
    (he : ∀ x, e ≠ .get x ∧ e ≠ .put x ∧ e ≠ .freeSeg x true) : (w.emit e).Ledger := by
  refine ⟨fun x => ?_, fun x hx => ?_⟩
  · show (w.log ++ [e]).count _ = (w.log ++ [e]).count _ + _
    rw [List.count_append, List.count_append, List.count_singleton, List.count_singleton,
      beq_eq_false_iff_ne.mpr (he x).1, beq_eq_false_iff_ne.mpr (he x).2.1]
    exact h.balance x
  · rcases List.mem_append.mp hx with hx | hx
    · exact h.clean x hx
    · exact (he x).2.2 (List.mem_singleton.mp hx).symm

theorem World.Ledger.get (h : w.Ledger) (hm : w.pooled m = true) (hlog : w'.log = w.log ++ [.get m])
    (hpooled : w'.pooled = Function.update w.pooled m false) : w'.Ledger := by
  refine ⟨fun x => ?_, fun x hx => ?_⟩
  · have hbalance := h.balance x
    rw [hlog, hpooled, List.count_append, List.count_append]
    by_cases hxm : x = m
    · subst hxm
      simp [hm] at hbalance
      simp [hbalance]
    · have hmx : m ≠ x := Ne.symm hxm
      simp [hxm, hmx, hbalance]
  · rw [hlog, List.mem_append, List.mem_singleton] at hx
    rcases hx with hx | hx
    · exact h.clean x hx
    · cases hx

theorem World.Ledger.put (h : w.Ledger) (hm : w.pooled m = false) :
    (rteMempoolPut w m).Ledger := by
  refine ⟨fun x => ?_, fun x hx => ?_⟩
  · have hbalance := h.balance x
    show (w.log ++ [Event.put m]).count _ = (w.log ++ [Event.put m]).count _ +
      if Function.update w.pooled m true x then 0 else 1
    rw [List.count_append, List.count_append]
    by_cases hxm : x = m
    · subst hxm
      simp [hm] at hbalance
      simp [hbalance]
    · have hmx : m ≠ x := Ne.symm hxm
      simp [hxm, hmx, hbalance]
  · rcases List.mem_append.mp hx with hx | hx
    · exact h.clean x hx
    · cases List.mem_singleton.mp hx

end Ledger

section Counted

variable {w w' : World n} {users users' : List (Fin n)} {x : Fin n}

theorem World.Counted.perm (h : w.Counted users) (hperm : users.Perm users') : w.Counted users' :=
  ⟨h.attached.perm hperm, fun x => (h.refcnt x).trans (refs_perm hperm x), h.pooled, h.ledger⟩

/-- The counters are a matter of `buf_addr` and `refcnt`. -/
theorem World.Counted.congr (h : w.Counted users) (htarget : ∀ x, w'.target x = w.target x)
    (hrefcnt : ∀ x, (w'.mbuf x).refcnt = (w.mbuf x).refcnt) (hpooled : w'.pooled = w.pooled)
    (hledger : w'.Ledger) : w'.Counted users := by
  have hsame : w'.target = w.target := funext htarget
  refine ⟨hsame ▸ h.attached, fun x => ?_, fun x => ?_, hledger⟩
  · rw [hrefcnt, hsame]
    exact h.refcnt x
  · rw [hrefcnt, hpooled]
    exact h.pooled x

theorem World.Counted.modifyPkt (h : w.Counted users) (m : Fin n) (f : Pktmbuf n → Pktmbuf n) :
    (w.modifyPkt m f).Counted users := by
  refine h.congr (fun x => modifyPkt_bufAddr w m x f) (fun x => ?_) rfl (h.ledger.congr rfl rfl)
  rw [modifyPkt_mbuf]
  split <;> rfl

theorem World.Counted.emit (h : w.Counted users) {e : Event n}
    (he : ∀ x, e ≠ .get x ∧ e ≠ .put x ∧ e ≠ .freeSeg x true) : (w.emit e).Counted users :=
  h.congr (fun _ => rfl) (fun _ => rfl) rfl (h.ledger.emit he)

/-- What a segment in use holds, itself or the mbuf that it is attached to, is out of its pool. -/
theorem World.Counted.heldBy (h : w.Counted users) (hx : x ∈ users) {k : Fin n}
    (hk : x = k ∨ w.target x = k) : 0 < (w.mbuf k).refcnt.toNat ∧ w.pooled k = false := by
  have hcount := refs_erase w.target hx k
  rw [← h.refcnt, if_pos hk] at hcount
  have hpos : 0 < (w.mbuf k).refcnt.toNat := by omega
  refine ⟨hpos, ?_⟩
  rw [← Bool.not_eq_true, h.pooled]
  intro hzero
  rw [hzero] at hpos
  exact absurd hpos (by decide)

theorem World.Counted.pos_of_mem (h : w.Counted users) (hx : x ∈ users) :
    0 < (w.mbuf x).refcnt.toNat :=
  (h.heldBy hx (Or.inl rfl)).1

theorem World.Counted.inUse (h : w.Counted users) (hx : x ∈ users) : w.pooled x = false :=
  (h.heldBy hx (Or.inl rfl)).2

theorem World.Counted.free_of_pooled (h : w.Counted users) (hx : w.pooled x = true) :
    refs w.target users x = 0 := by
  rw [← h.refcnt, (h.pooled x).mp hx]
  rfl

/-- An mbuf that a pool gave out. -/
theorem World.Counted.take (h : w.Counted users) {m : Fin n} (hm : w.pooled m = true)
    (hlog : w'.log = w.log ++ [.get m]) (hpooled : w'.pooled = Function.update w.pooled m false)
    (hothers : ∀ k, k ≠ m → w'.mbuf k = w.mbuf k) (htarget : w'.target m = w.target m)
    (hrefcnt : (w'.mbuf m).refcnt = 1) : w'.Counted (m :: users) := by
  have hzero := h.free_of_pooled hm
  obtain ⟨hattached, hrefs⟩ := h.attached.alloc hzero
  have hsame : w'.target = w.target := by
    funext k
    by_cases hk : k = m
    · rw [hk, htarget]
    · rw [World.target, hothers k hk, World.target]
  refine ⟨hsame ▸ hattached, fun k => ?_, fun k => ?_, h.ledger.get hm hlog hpooled⟩
  · rw [hsame, hrefs]
    by_cases hk : k = m
    · rw [hk, hrefcnt, hzero]
      simp
    · have hmk : m ≠ k := Ne.symm hk
      rw [hothers k hk, h.refcnt]
      simp [hmk]
  · rw [hpooled]
    by_cases hk : k = m
    · rw [hk, hrefcnt]
      simp
    · rw [Function.update_of_ne hk, hothers k hk]
      exact h.pooled k

/-- An unshared segment is attached to a direct one, whose counter has room. -/
theorem World.Counted.attach (h : w.Counted users) {mi md : Fin n} (hmi : mi ∈ users)
    (hself : w.target mi = mi) (halone : (w.mbuf mi).refcnt = 1) (hmd : md ∈ users)
    (hdirect : w.target md = md) (hroom : (w.mbuf md).refcnt ≠ 0xffff) (hne : md ≠ mi) :
    (rtePktmbufAttach w mi md).Counted users := by
  have hone : refs w.target users mi = 1 := by
    rw [← h.refcnt, halone]
    rfl
  obtain ⟨hattached, hrefs⟩ := h.attached.attach hmi hself hone hdirect hne
  have hupdate : (rteMbufRefcntUpdate w md 1).2.mbuf mi = w.mbuf mi := by
    rw [rteMbufRefcntUpdate, rteMbufRefcntSet, modify_mbuf_ne _ _ (Ne.symm hne)]
  have hmdaddr : ((rteMbufRefcntUpdate w md 1).2.mbuf md).bufAddr = md := by
    rw [rteMbufRefcntUpdate, rteMbufRefcntSet, modify_mbuf_self]
    exact hdirect
  have hselfMbuf : (rtePktmbufAttach w mi md).target mi = md ∧
      ((rtePktmbufAttach w mi md).mbuf mi).refcnt = 1 := by
    rw [World.target, rtePktmbufAttach, modify_mbuf_self]
    exact ⟨hmdaddr, by rw [hupdate, halone]⟩
  have hothers : ∀ k, k ≠ mi → (rtePktmbufAttach w mi md).mbuf k =
      (rteMbufRefcntUpdate w md 1).2.mbuf k := fun k hk => by
    rw [rtePktmbufAttach, modify_mbuf_ne _ _ hk]
  have htarget : (rtePktmbufAttach w mi md).target = Function.update w.target mi md := by
    funext k
    by_cases hk : k = mi
    · rw [hk, hselfMbuf.1, Function.update_self]
    · obtain ⟨r, hr⟩ := refcntUpdate_mbuf w md 1 k
      rw [World.target, hothers k hk, Function.update_of_ne hk, hr]
      rfl
  have hmdcount : ((w.mbuf md).refcnt + 1).toNat = (w.mbuf md).refcnt.toNat + 1 := by
    have hlt := (w.mbuf md).refcnt.toNat_lt
    have hnot : (w.mbuf md).refcnt.toNat ≠ (0xffff : UInt16).toNat := fun heq =>
      hroom (UInt16.toNat_inj.mp heq)
    have hmax : (0xffff : UInt16).toNat = 65535 := rfl
    have hone : (1 : UInt16).toNat = 1 := rfl
    rw [UInt16.toNat_add, hone]
    omega
  have hcount : ∀ k, ((rtePktmbufAttach w mi md).mbuf k).refcnt.toNat =
      (w.mbuf k).refcnt.toNat + if k = md then 1 else 0 := by
    intro k
    by_cases hk : k = mi
    · rw [hk, hselfMbuf.2, halone, if_neg (Ne.symm hne), Nat.add_zero]
    · rw [hothers k hk, rteMbufRefcntUpdate, rteMbufRefcntSet]
      by_cases hkd : k = md
      · rw [hkd, modify_mbuf_self, if_pos rfl]
        exact hmdcount
      · rw [modify_mbuf_ne _ _ hkd, if_neg hkd]
        rfl
  refine ⟨htarget ▸ hattached, fun k => ?_, fun k => ?_, h.ledger.congr rfl rfl⟩
  · rw [hcount, htarget, hrefs, h.refcnt]
  · have hk := hcount k
    show w.pooled k = true ↔ _
    rw [h.pooled, ← UInt16.toNat_inj, ← UInt16.toNat_inj, hk, UInt16.toNat_zero]
    split
    next hkd =>
      have hpos := h.pos_of_mem hmd
      rw [hkd]
      omega
    next => rfl

theorem refcnt_pred {r : UInt16} (h : 0 < r.toNat) : (r + (-1)).toNat + 1 = r.toNat := by
  have hlt := r.toNat_lt
  have hminus : (-1 : UInt16).toNat = 65535 := rfl
  rw [UInt16.toNat_add, hminus]
  omega

/-- A segment went out of use: it is detached, and each counter that it was in is one less. -/
theorem World.Counted.drop (h : w.Counted users) (hx : x ∈ users)
    (htarget : w'.target = Function.update w.target x x)
    (hrefcnt : ∀ k, (w'.mbuf k).refcnt.toNat + (if x = k ∨ w.target x = k then 1 else 0) =
      (w.mbuf k).refcnt.toNat)
    (hpooled : ∀ k, w'.pooled k = true ↔ (w'.mbuf k).refcnt = 0) (hledger : w'.Ledger) :
    w'.Counted (users.erase x) := by
  obtain ⟨hattached, hrefs⟩ := h.attached.release hx
  refine ⟨htarget ▸ hattached, fun k => ?_, hpooled, hledger⟩
  have hk := hrefcnt k
  rw [h.refcnt, hrefs] at hk
  rw [htarget]
  exact Nat.add_right_cancel hk

/-- Such a segment, with no holder left, goes back to its pool. -/
theorem World.Counted.giveBack (h : w.Counted users) (hx : x ∈ users)
    (htarget : w'.target = Function.update w.target x x)
    (hrefcnt : ∀ k, (w'.mbuf k).refcnt.toNat + (if x = k ∨ w.target x = k then 1 else 0) =
      (w.mbuf k).refcnt.toNat)
    (hxzero : (w'.mbuf x).refcnt = 0) (hxUse : w'.pooled x = false)
    (hpooled : ∀ k, k ≠ x → (w'.pooled k = true ↔ (w'.mbuf k).refcnt = 0))
    (hledger : w'.Ledger) : (rteMempoolPut w' x).Counted (users.erase x) := by
  refine h.drop hx htarget hrefcnt (fun k => ?_) (hledger.put hxUse)
  show Function.update w'.pooled x true k = true ↔ (w'.mbuf k).refcnt = 0
  by_cases hk : k = x
  · rw [hk, hxzero, Function.update_self]
    simp
  · rw [Function.update_of_ne hk]
    exact hpooled k hk

theorem World.Counted.releaseDirect (h : w.Counted users) (hx : x ∈ users)
    (hone : (w.mbuf x).refcnt = 1) (hself : w.target x = x) :
    (releaseSeg w x).Counted (users.erase x) := by
  have hrun : releaseSeg w x = rteMempoolPut (rteMbufRefcntSet w x 0) x := by
    rw [releaseSeg]
    simp only [show (w.mbuf x).bufAddr = x from hself, ne_eq, not_true_eq_false, if_false,
      rteMbufRawFree]
  have hothers : ∀ k, k ≠ x → (rteMbufRefcntSet w x 0).mbuf k = w.mbuf k := fun k hk => by
    rw [rteMbufRefcntSet, modify_mbuf_ne _ _ hk]
  have hset : ((rteMbufRefcntSet w x 0).mbuf x).refcnt = 0 := by
    rw [rteMbufRefcntSet, modify_mbuf_self]
  have hledger : (rteMbufRefcntSet w x 0).Ledger := h.ledger.congr rfl rfl
  rw [hrun]
  refine h.giveBack hx (funext fun k => ?_) (fun k => ?_) hset (h.inUse hx) (fun k hk => ?_) hledger
  · by_cases hk : k = x
    · rw [hk, Function.update_self, World.target, rteMbufRefcntSet, modify_mbuf_self]
      exact hself
    · rw [World.target, hothers k hk, Function.update_of_ne hk, World.target]
  · by_cases hk : k = x
    · rw [hk, hset, hone]
      simp
    · have hxk : x ≠ k := Ne.symm hk
      rw [hothers k hk, hself]
      simp [hxk]
  · rw [hothers k hk]
    exact h.pooled k

/-- The last holder of an attached segment gives back the segment, and the mbuf that it was
attached to if that one has no other holder. `v` is the memory before the two go back. -/
theorem releaseSeg_indirect (w : World n) (hne : w.target x ≠ x) :
    ∃ v : World n, releaseSeg w x = rteMempoolPut
        (if (v.mbuf (w.target x)).refcnt = 0 then rteMempoolPut v (w.target x) else v) x ∧
      v.target = Function.update w.target x x ∧ (v.mbuf x).refcnt = 0 ∧
      (v.mbuf (w.target x)).refcnt = (w.mbuf (w.target x)).refcnt + (-1) ∧
      (∀ k, k ≠ x → k ≠ w.target x → v.mbuf k = w.mbuf k) ∧
      v.pooled = w.pooled ∧ v.log = w.log := by
  have hmdaddr : (w.mbuf x).bufAddr = w.target x := rfl
  generalize hmd : w.target x = md at *
  have hxmd : x ≠ md := Ne.symm hne
  generalize hu : rtePktmbufDetach (rteMbufRefcntSet w x 0) x = u
  have hux : (u.mbuf x).bufAddr = x ∧ (u.mbuf x).refcnt = 0 := by
    rw [← hu, rtePktmbufDetach, modify_mbuf_self, rteMbufRefcntSet, modify_mbuf_self]
    exact ⟨rfl, rfl⟩
  have huk : ∀ k, k ≠ x → u.mbuf k = w.mbuf k := by
    intro k hk
    rw [← hu, rtePktmbufDetach, modify_mbuf_ne _ _ hk, rteMbufRefcntSet, modify_mbuf_ne _ _ hk]
  generalize hv : rteMbufRefcntSet u md ((u.mbuf md).refcnt + (-1)) = v
  have hvmd : v.mbuf md = { w.mbuf md with refcnt := (w.mbuf md).refcnt + (-1) } := by
    rw [← hv, rteMbufRefcntSet, modify_mbuf_self, huk md hne]
  have hvk : ∀ k, k ≠ md → v.mbuf k = u.mbuf k := by
    intro k hk
    rw [← hv, rteMbufRefcntSet, modify_mbuf_ne _ _ hk]
  have hrun : releaseSeg w x =
      rteMempoolPut (if (u.mbuf md).refcnt + (-1) = 0 then rteMempoolPut v md else v) x := by
    rw [releaseSeg]
    simp only [hmdaddr, ne_eq, hne, not_false_eq_true, if_true, hu, rteMbufRefcntUpdate, hv,
      rteMbufRawFree]
  refine ⟨v, ?_, funext fun k => ?_, ?_, ?_, fun k hkx hkmd => ?_, ?_, ?_⟩
  · rw [hrun, hvmd, huk md hne]
  · by_cases hkx : k = x
    · rw [hkx, Function.update_self, World.target, hvk x hxmd]
      exact hux.1
    · rw [Function.update_of_ne hkx]
      by_cases hkmd : k = md
      · rw [hkmd, World.target, hvmd]
        rfl
      · rw [World.target, hvk k hkmd, huk k hkx]
        rfl
  · rw [hvk x hxmd]
    exact hux.2
  · rw [hvmd]
  · rw [hvk k hkmd, huk k hkx]
  · rw [← hv, ← hu]
    rfl
  · rw [← hv, ← hu]
    rfl

theorem World.Counted.releaseIndirect (h : w.Counted users) (hx : x ∈ users)
    (hone : (w.mbuf x).refcnt = 1) (hne : w.target x ≠ x) :
    (releaseSeg w x).Counted (users.erase x) := by
  obtain ⟨v, hrun, htarget, hxzero, hmdpred, hothers, hpooled, hlog⟩ := releaseSeg_indirect w hne
  obtain ⟨hpos, hmdUse⟩ := h.heldBy hx (Or.inr rfl)
  generalize hmd : w.target x = md at *
  have hledger : v.Ledger := h.ledger.congr hlog hpooled
  have hxUse : v.pooled x = false := hpooled ▸ h.inUse hx
  have hrefcnt : ∀ k, (v.mbuf k).refcnt.toNat + (if x = k ∨ md = k then 1 else 0) =
      (w.mbuf k).refcnt.toNat := by
    intro k
    by_cases hkx : k = x
    · rw [hkx, hxzero, hone, if_pos (Or.inl rfl)]
      rfl
    · by_cases hkmd : k = md
      · rw [hkmd, hmdpred, if_pos (Or.inr rfl)]
        exact refcnt_pred hpos
      · rw [hothers k hkx hkmd, if_neg (by simp [Ne.symm hkx, Ne.symm hkmd]), Nat.add_zero]
  have hvpooled : ∀ k, k ≠ x → k ≠ md → (v.pooled k = true ↔ (v.mbuf k).refcnt = 0) := by
    intro k hkx hkmd
    rw [hpooled, hothers k hkx hkmd]
    exact h.pooled k
  rw [← hmd] at hrefcnt
  rw [hrun]
  split
  next hzero =>
    have hput : (rteMempoolPut v md).pooled x = false := by
      show Function.update v.pooled md true x = false
      rw [Function.update_of_ne (Ne.symm hne), hxUse]
    refine h.giveBack hx htarget hrefcnt hxzero hput (fun k hkx => ?_)
      (hledger.put (hpooled ▸ hmdUse))
    show Function.update v.pooled md true k = true ↔ (v.mbuf k).refcnt = 0
    by_cases hkmd : k = md
    · rw [hkmd, hzero, Function.update_self]
      simp
    · rw [Function.update_of_ne hkmd]
      exact hvpooled k hkx hkmd
  next hleft =>
    refine h.giveBack hx htarget hrefcnt hxzero hxUse (fun k hkx => ?_) hledger
    by_cases hkmd : k = md
    · rw [hkmd, hpooled, hmdUse]
      simp [hleft]
    · exact hvpooled k hkx hkmd

/-- Not the last holder: only a counter changes. -/
theorem World.Counted.releaseShared (h : w.Counted users) (hx : x ∈ users)
    (hone : (w.mbuf x).refcnt ≠ 1) :
    (rteMbufRefcntUpdate w x (-1)).1 ≠ 0 ∧
      (rteMbufRefcntUpdate w x (-1)).2.Counted (users.erase x) := by
  have hself : w.target x = x := by
    by_contra hattached
    have hrefs := h.attached.refs_attached hx hattached
    rw [← h.refcnt] at hrefs
    exact hone (UInt16.toNat_inj.mp hrefs)
  have hpos := h.pos_of_mem hx
  have hpred := refcnt_pred hpos
  have hnotone : (w.mbuf x).refcnt.toNat ≠ 1 := fun heq => hone (UInt16.toNat_inj.mp heq)
  have hleft : (w.mbuf x).refcnt + (-1) ≠ 0 := by
    intro hzero
    rw [hzero] at hpred
    exact hnotone hpred.symm
  have hxcount : ((rteMbufRefcntUpdate w x (-1)).2.mbuf x).refcnt = (w.mbuf x).refcnt + (-1) := by
    rw [rteMbufRefcntUpdate, rteMbufRefcntSet, modify_mbuf_self]
  have hothers : ∀ k, k ≠ x → (rteMbufRefcntUpdate w x (-1)).2.mbuf k = w.mbuf k := fun k hk => by
    rw [rteMbufRefcntUpdate, rteMbufRefcntSet, modify_mbuf_ne _ _ hk]
  refine ⟨hleft, h.drop hx (funext fun k => ?_) (fun k => ?_) (fun k => ?_)
    (h.ledger.congr rfl rfl)⟩
  · obtain ⟨r, hr⟩ := refcntUpdate_mbuf w x (-1) k
    rw [World.target, hr, Function.update_eq_self_iff.mpr hself.symm]
    rfl
  · by_cases hk : k = x
    · rw [hk, hxcount, if_pos (Or.inl rfl)]
      exact hpred
    · have hxk : x ≠ k := Ne.symm hk
      rw [hothers k hk, hself, if_neg (by simp [hxk]), Nat.add_zero]
  · show w.pooled k = true ↔ _
    by_cases hk : k = x
    · rw [hk, hxcount, h.inUse hx]
      simp [hleft]
    · rw [hothers k hk]
      exact h.pooled k

theorem World.Counted.freeSeg (h : w.Counted users) (hx : x ∈ users) :
    (rtePktmbufFreeSeg w x).Counted (users.erase x) := by
  have hlogged : (w.emit (.freeSeg x (w.pooled x))).Counted users := by
    refine h.emit fun k => ⟨by simp, by simp, ?_⟩
    rw [h.inUse hx]
    simp
  have hsame : (w.emit (.freeSeg x (w.pooled x))).mbuf x = w.mbuf x := rfl
  unfold rtePktmbufFreeSeg
  dsimp only
  split
  next hone =>
    by_cases hself : w.target x = x
    · exact hlogged.releaseDirect hx hone hself
    · exact hlogged.releaseIndirect hx hone hself
  next hone =>
    obtain ⟨hleft, hcounted⟩ := hlogged.releaseShared hx hone
    rw [if_neg hleft]
    exact hcounted

theorem World.Counted.foldl_freeSeg {segs : List (Fin n)} (h : w.Counted (segs ++ users)) :
    (segs.foldl rtePktmbufFreeSeg w).Counted users := by
  induction segs generalizing w with
  | nil => exact h
  | cons x segs ih =>
    have hfree := h.freeSeg (x := x) (by simp)
    rw [List.cons_append, List.erase_cons_head] at hfree
    exact ih hfree

/-- Freeing a packet takes its segments out of use, and writes no link. -/
theorem World.Counted.free {m : Fin n} {segs : List (Fin n)} (h : w.Counted (segs ++ users))
    (hchain : Chain w.next (some m) segs) :
    (rtePktmbufFree w (some m)).Counted users ∧ (rtePktmbufFree w (some m)).next = w.next := by
  refine ⟨?_, (free_freedTo w (some m)).next⟩
  rw [free_eq_foldl hchain]
  exact World.Counted.foldl_freeSeg (h.emit fun k => ⟨by simp, by simp, by simp⟩)

end Counted

end LearningSwitch
