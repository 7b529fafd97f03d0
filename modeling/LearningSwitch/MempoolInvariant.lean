import LearningSwitch.Mempool
import Mathlib.Algebra.BigOperators.Fin
import Mathlib.Algebra.Order.BigOperators.Group.Finset
import Mathlib.Tactic.Abel

namespace LearningSwitch

variable {α : Type}

namespace RteRing.Holds

variable {r : RteRing α} {base : Nat} {q : BoundedQueue α}

/-- A bulk enqueue that there is room for. -/
theorem spEnqueueBulk (h : r.Holds base q) (objTable : Nat → α) {n : UInt32}
    (hn : q.items.length + n.toNat ≤ q.capacity) :
    (rteRingSpDoEnqueue r objTable n .queueFixed).1.Holds base
      { q with items := q.items ++ (List.range n.toNat).map objTable } := by
  have hspec := (h.spDoEnqueue objTable n .queueFixed).1
  have hquota : queueQuota .queueFixed (-enobufs) n.toNat (q.capacity - q.items.length) =
      .ok n.toNat := by
    unfold queueQuota
    rw [if_pos (by omega)]
  simpa [BoundedQueue.enqueue, hquota] using hspec

theorem mpEnqueueBulk (h : r.Holds base q) (objTable : Nat → α) {n : UInt32}
    (hn : q.items.length + n.toNat ≤ q.capacity) :
    ∃ r' ret, rteRingMpDoEnqueue r objTable n .queueFixed = some (r', ret) ∧
      r'.Holds base { q with items := q.items ++ (List.range n.toNat).map objTable } := by
  have heq := rteRingMpDoEnqueue_eq_sp (by rw [h.prodHead, h.prodTail]) objTable n .queueFixed
  exact ⟨_, (rteRingSpDoEnqueue r objTable n .queueFixed).2, heq, h.spEnqueueBulk objTable hn⟩

theorem scDequeueBulk (h : r.Holds base q) {n : UInt32} (hn : n.toNat ≤ q.items.length) :
    ∃ r' base', rteRingScDoDequeue r n .queueFixed = (r', q.items.take n.toNat, 0) ∧
      r'.Holds base' { q with items := q.items.drop n.toNat } := by
  obtain ⟨k, hholds, hret⟩ := h.scDoDequeue n .queueFixed
  have hquota : queueQuota .queueFixed (-enoent) n.toNat q.items.length = .ok n.toNat := by
    unfold queueQuota
    rw [if_pos hn]
  simp only [BoundedQueue.dequeue, hquota] at hholds hret
  exact ⟨_, base + k, Prod.ext rfl hret, hholds⟩

theorem scDequeueBulk_fail (h : r.Holds base q) {n : UInt32} (hn : q.items.length < n.toNat) :
    rteRingScDoDequeue r n .queueFixed = (r, [], -enoent) := by
  have hused := h.used
  unfold rteRingScDoDequeue
  have hquota : ringQuota .queueFixed (-enoent) n (r.prod.tail - r.cons.head) =
      .error (-enoent) := by
    unfold ringQuota
    rw [if_pos (UInt32.lt_iff_toNat_lt.mpr (by omega))]
  simp only [hquota]

theorem mcDoDequeue_eq (h : r.Holds base q) (n : UInt32) :
    rteRingMcDoDequeue r n .queueFixed = some (rteRingScDoDequeue r n .queueFixed) :=
  rteRingMcDoDequeue_eq_sc (by rw [h.consHead, h.consTail]) n .queueFixed

end RteRing.Holds

/-- The objects in a cache. -/
def MempoolCache.items (c : MempoolCache α) : List α :=
  (List.range c.len.toNat).map c.objs

/-- The objects that a pool can hand out. -/
def RteMempool.pooled (mp : RteMempool α) : Multiset α :=
  (mp.ring.entries : Multiset α) + ∑ lcoreId, ((mp.localCache lcoreId).items : Multiset α)

/-- What holds between two calls on a pool whose ring represents `q`. -/
structure RteMempool.Holds (mp : RteMempool α) (base : Nat) (q : BoundedQueue α) : Prop where
  ring : mp.ring.Holds base q
  cacheSize : mp.cacheSize ≤ rteMempoolCacheMaxSize
  flushthresh : mp.cacheFlushthresh.toNat = mp.cacheSize.toNat * 3 / 2
  len : ∀ lcoreId, (mp.localCache lcoreId).len ≤ mp.cacheFlushthresh

theorem RteRing.Holds.entries {r : RteRing α} {base : Nat} {q : BoundedQueue α}
    (h : r.Holds base q) : r.entries = q.items := by
  have hle := h.le
  have hcap := h.capacity
  have hb := h.masked.bound
  rw [RteRing.entries, RteRing.readEntries, h.prodTail, h.consTail,
    CircularWindow.toNat_sub_ofNat (by omega) (by omega), Nat.add_sub_cancel_left]
  conv_rhs => rw [← h.cells]
  refine List.map_congr_left fun i _ => ?_
  rw [h.masked.index]

/-- What is in the pool once the cache of one lcore has changed. -/
theorem sum_items_update (caches : Fin rteMaxLcore → MempoolCache α) (lcoreId : Fin rteMaxLcore)
    (c : MempoolCache α) :
    (∑ l, ((Function.update caches lcoreId c l).items : Multiset α)) +
      ((caches lcoreId).items : Multiset α) =
    (∑ l, ((caches l).items : Multiset α)) + (c.items : Multiset α) := by
  have hupdate : (fun l => ((Function.update caches lcoreId c l).items : Multiset α)) =
      Function.update (fun l => ((caches l).items : Multiset α)) lcoreId (c.items : Multiset α) := by
    funext l
    by_cases hl : l = lcoreId
    · simp [hl]
    · simp [hl]
  have hmem := Finset.mem_univ lcoreId
  rw [hupdate, Finset.sum_update_of_mem hmem, add_right_comm, add_assoc,
    ← Finset.add_sum_erase _ _ hmem, Finset.sdiff_singleton_eq_erase]
  exact add_comm _ _

namespace MempoolCache

/-- No index of a push passes the end of the cache while it holds no more than its threshold. -/
theorem push_ok (c : MempoolCache α) {n : UInt32} (objTable : Nat → α)
    (h : c.len.toNat + n.toNat ≤ 1536) :
    ∃ c', c.push objTable n = .ok c' ∧ c'.len.toNat = c.len.toNat + n.toNat ∧
      c'.items = c.items ++ (List.range n.toNat).map objTable := by
  have hmax : rteMempoolCacheMaxSize.toNat = 512 := rfl
  have hsum : (c.len + n).toNat = c.len.toNat + n.toNat := by
    rw [UInt32.toNat_add]
    exact Nat.mod_eq_of_lt (by omega)
  refine ⟨_, if_neg (by omega), hsum, ?_⟩
  simp only [items, hsum, List.range_add, List.map_append, List.map_map]
  congr 1
  · refine List.map_congr_left fun i hi => ?_
    have hi := List.mem_range.mp hi
    rw [if_neg (by omega)]
  · refine List.map_congr_left fun i hi => ?_
    have hi := List.mem_range.mp hi
    simp only [Function.comp_apply]
    rw [if_pos (by omega), Nat.add_sub_cancel_left]

/-- The objects of a cache up to `n`, and those from there on. -/
theorem items_split (c : MempoolCache α) {m n : UInt32} (h : m.toNat + n.toNat = c.len.toNat) :
    c.items = MempoolCache.items { c with len := m } ++
      (List.range n.toNat).map fun i => c.objs (m.toNat + i) := by
  simp [items, ← h, List.range_add, Function.comp_def]

/-- The last `n` objects of a cache, taken from its end. -/
theorem take_items (c : MempoolCache α) {n : UInt32} (hn : n ≤ c.len) :
    (c.items : Multiset α) = (MempoolCache.items { c with len := c.len - n } : Multiset α) +
      (((List.range n.toNat).map fun index =>
        c.objs (c.len - 1 - UInt32.ofNat index).toNat) : Multiset α) := by
  have hle := UInt32.le_iff_toNat_le.mp hn
  have hsub : (c.len - n).toNat = c.len.toNat - n.toNat := UInt32.toNat_sub_of_le _ _ hn
  rw [c.items_split (m := c.len - n) (n := n) (by omega), ← Multiset.coe_add]
  congr 1
  refine Multiset.coe_eq_coe.mpr ?_
  have hreverse : ((List.range n.toNat).map fun index =>
      c.objs (c.len - 1 - UInt32.ofNat index).toNat) =
      ((List.range n.toNat).map fun i => c.objs ((c.len - n).toNat + i)).reverse := by
    refine List.ext_getElem (by simp) fun i hi _ => ?_
    have hi : i < n.toNat := by simpa using hi
    have hlt := UInt32.toNat_lt c.len
    have hone : (1 : UInt32).toNat = 1 := rfl
    have hlast : (c.len - 1 - UInt32.ofNat i).toNat = c.len.toNat - 1 - i := by
      rw [UInt32.toNat_sub, UInt32.toNat_sub, UInt32.toNat_ofNat', hone]
      omega
    simp only [List.getElem_map, List.getElem_range, List.getElem_reverse, List.length_map,
      List.length_range, hlast, hsub]
    congr 1
    omega
  rw [hreverse]
  exact (List.reverse_perm _).symm

end MempoolCache

namespace RteMempool.Holds

variable {mp : RteMempool α} {base : Nat} {q : BoundedQueue α}

theorem pooled (h : mp.Holds base q) : mp.pooled =
    (q.items : Multiset α) + ∑ l, ((mp.localCache l).items : Multiset α) := by
  rw [RteMempool.pooled, h.ring.entries]

theorem flushthresh_le (h : mp.Holds base q) : mp.cacheFlushthresh.toNat ≤ 768 := by
  have hsize := UInt32.le_iff_toNat_le.mp h.cacheSize
  have hmax : rteMempoolCacheMaxSize.toNat = 512 := rfl
  have hflush := h.flushthresh
  omega

/-- The objects that the caches and the ring hold are no more than those of the pool. -/
theorem card_pooled (h : mp.Holds base q) : mp.pooled.card = q.items.length +
    ∑ l, (mp.localCache l).len.toNat := by
  rw [h.pooled, Multiset.card_add, Multiset.card_sum]
  simp [MempoolCache.items]

theorem len_le_card (h : mp.Holds base q) (lcoreId : Fin rteMaxLcore) :
    q.items.length + (mp.localCache lcoreId).len.toNat ≤ mp.pooled.card := by
  have hle := Finset.single_le_sum (f := fun l => (mp.localCache l).len.toNat)
    (fun _ _ => Nat.zero_le _) (Finset.mem_univ lcoreId)
  rw [h.card_pooled]
  omega

/-- The pool with another ring. -/
theorem withRing (h : mp.Holds base q) {r : RteRing α} {base' : Nat} {q' : BoundedQueue α}
    (hr : r.Holds base' q') : RteMempool.Holds { mp with ring := r } base' q' :=
  ⟨hr, h.cacheSize, h.flushthresh, h.len⟩

/-- The pool with another cache at one lcore. -/
theorem withCache (h : mp.Holds base q) (lcoreId : Fin rteMaxLcore) {c : MempoolCache α}
    (hc : c.len ≤ mp.cacheFlushthresh) :
    RteMempool.Holds { mp with localCache := Function.update mp.localCache lcoreId c } base q := by
  refine ⟨h.ring, h.cacheSize, h.flushthresh, fun l => ?_⟩
  by_cases hl : l = lcoreId
  · simpa [hl] using hc
  · simpa [hl] using h.len l

/-- What `put` and `get` leave alone. -/
structure Kept (mp mp' : RteMempool α) (q q' : BoundedQueue α) : Prop where
  capacity : q'.capacity = q.capacity
  size : mp'.size = mp.size
  flags : mp'.flags = mp.flags
  cacheSize : mp'.cacheSize = mp.cacheSize

theorem putRing (h : mp.Holds base q) (objTable : Nat → α) {n : UInt32} (isMp : Bool)
    (room : q.items.length + n.toNat ≤ q.capacity) :
    ∃ r, mempoolRingEnqueue mp.ring objTable n isMp = .ok r ∧
      r.1.Holds base { q with items := q.items ++ (List.range n.toNat).map objTable } := by
  cases isMp with
  | false => exact ⟨_, rfl, h.ring.spEnqueueBulk objTable room⟩
  | true =>
    obtain ⟨r, ret, henq, hholds⟩ := h.ring.mpEnqueueBulk objTable room
    exact ⟨(r, ret), by simp [mempoolRingEnqueue, henq, spun], hholds⟩

/-- The cache of one lcore with more objects in it, as far as they stay below the threshold. -/
theorem putCache (h : mp.Holds base q) {lcoreId : Fin rteMaxLcore} {c : MempoolCache α}
    {more : List α} (hc : c.len ≤ mp.cacheFlushthresh)
    (hitems : c.items = (mp.localCache lcoreId).items ++ more) :
    ∃ mp', mp' = { mp with localCache := Function.update mp.localCache lcoreId c } ∧
      mp'.Holds base q ∧ mp'.pooled = mp.pooled + (more : Multiset α) := by
  have hholds := h.withCache lcoreId hc
  refine ⟨_, rfl, hholds, ?_⟩
  have hupdate := sum_items_update mp.localCache lcoreId c
  rw [hholds.pooled, h.pooled]
  refine add_right_cancel (b := ((mp.localCache lcoreId).items : Multiset α)) ?_
  rw [add_assoc, hupdate, hitems, ← Multiset.coe_add]
  abel

/-- A put finds room in its cache and in the ring, and the pool holds its objects afterwards. -/
theorem put (h : mp.Holds base q) (lcoreId : Fin rteMaxLcore) (objTable : Nat → α)
    {n : UInt32} (isMp : Bool)
    (room : mp.pooled.card + n.toNat ≤ q.capacity) :
    ∃ mp' q', mempoolPutBulk mp lcoreId objTable n isMp = .ok mp' ∧ mp'.Holds base q' ∧
      Kept mp mp' q q' ∧
      mp'.pooled = mp.pooled + ((List.range n.toNat).map objTable : Multiset α) := by
  have hcard := h.len_le_card lcoreId
  have hflush := h.flushthresh
  have hflush_le := h.flushthresh_le
  have hlen := UInt32.le_iff_toNat_le.mp (h.len lcoreId)
  have hmax : rteMempoolCacheMaxSize.toNat = 512 := rfl
  by_cases hring : mp.cacheSize = 0 ∨ isMp = false ∨ rteMempoolCacheMaxSize < n
  · obtain ⟨r, hr, hholds⟩ := h.putRing (n := n) objTable isMp (by omega)
    have hmp := h.withRing hholds
    refine ⟨_, _, ?_, hmp, ⟨rfl, rfl, rfl, rfl⟩, ?_⟩
    · rw [mempoolPutBulk, if_pos hring, hr]
      rfl
    · rw [hmp.pooled, h.pooled, ← Multiset.coe_add]
      abel
  obtain ⟨hsize, hmore⟩ := not_or.mp hring
  obtain ⟨hisMp, hn⟩ := not_or.mp hmore
  have hn := UInt32.le_iff_toNat_le.mp (UInt32.not_lt.mp hn)
  obtain ⟨c, hpush, hclen, hitems⟩ := (mp.localCache lcoreId).push_ok (n := n) objTable (by omega)
  by_cases hflushed : mp.cacheFlushthresh ≤ c.len
  · have hthresh := UInt32.le_iff_toNat_le.mp hflushed
    have hsub : (c.len - mp.cacheSize).toNat = c.len.toNat - mp.cacheSize.toNat :=
      UInt32.toNat_sub_of_le _ _ (UInt32.le_iff_toNat_le.mpr (by omega))
    obtain ⟨r, ret, henq, hr⟩ := h.ring.mpEnqueueBulk
      (fun i => c.objs (mp.cacheSize.toNat + i)) (n := c.len - mp.cacheSize) (by omega)
    have hholds := (h.withRing hr).withCache lcoreId
      (c := { c with len := mp.cacheSize }) (UInt32.le_iff_toNat_le.mpr (by simp only; omega))
    refine ⟨_, _, ?_, hholds, ⟨rfl, rfl, rfl, rfl⟩, ?_⟩
    · rw [mempoolPutBulk, if_neg hring, hpush]
      simp only [StepRun.ok_bind, henq, spun]
      rw [if_pos hflushed]
    · have hsplit := c.items_split (m := mp.cacheSize) (n := c.len - mp.cacheSize) (by omega)
      have hupdate := sum_items_update mp.localCache lcoreId { c with len := mp.cacheSize }
      have hall : (c.items : Multiset α) = ((mp.localCache lcoreId).items : Multiset α) +
          ((List.range n.toNat).map objTable : Multiset α) := by
        rw [hitems, Multiset.coe_add]
      rw [hsplit, ← Multiset.coe_add] at hall
      rw [hholds.pooled, h.pooled, ← Multiset.coe_add]
      refine add_right_cancel (b := ((mp.localCache lcoreId).items : Multiset α)) ?_
      rw [add_assoc, hupdate, add_add_add_comm, add_assoc (_ + _) _ (Multiset.ofList _)]
      exact congrArg _ ((add_comm _ _).trans (hall.trans (add_comm _ _)))
  · obtain ⟨mp', hmp', hholds, hpooled⟩ := h.putCache
      (UInt32.le_of_lt (UInt32.not_le.mp hflushed)) hitems
    refine ⟨mp', q, ?_, hholds, ?_, hpooled⟩
    · rw [mempoolPutBulk, if_neg hring, hpush, hmp']
      simp only [StepRun.ok_bind]
      rw [if_neg hflushed]
    · rw [hmp']
      exact ⟨rfl, rfl, rfl, rfl⟩

theorem getRing (h : mp.Holds base q) (n : UInt32) (isMc : Bool) :
    mempoolRingDequeue mp.ring n isMc = .ok (rteRingScDoDequeue mp.ring n .queueFixed) := by
  cases isMc with
  | false => rfl
  | true => simp [mempoolRingDequeue, h.ring.mcDoDequeue_eq, spun]

/-- A get that goes to the ring. -/
theorem getFromRing (h : mp.Holds base q) (n : UInt32) (isMc : Bool) :
    ∃ mp' base' q' out ret, mempoolGetRing mp n isMc = .ok (mp', out, ret) ∧
      mp'.Holds base' q' ∧ Kept mp mp' q q' ∧ mp'.pooled + (out : Multiset α) = mp.pooled ∧
      (ret = 0 ∧ n.toNat ≤ q.items.length ∧ out.length = n.toNat ∨
        ret = -enoent ∧ q.items.length < n.toNat ∧ out = [] ∧ mp' = mp) := by
  by_cases hn : n.toNat ≤ q.items.length
  · obtain ⟨r, base', hdeq, hr⟩ := h.ring.scDequeueBulk hn
    have hholds := h.withRing hr
    refine ⟨_, base', _, q.items.take n.toNat, 0, ?_, hholds, ⟨rfl, rfl, rfl, rfl⟩, ?_,
      Or.inl ⟨rfl, hn, by simpa using hn⟩⟩
    · rw [mempoolGetRing, h.getRing, hdeq]
      rfl
    · have hsplit : (q.items : Multiset α) =
          (q.items.take n.toNat : Multiset α) + (q.items.drop n.toNat : Multiset α) := by
        rw [Multiset.coe_add, List.take_append_drop]
      rw [hholds.pooled, h.pooled, hsplit]
      simp only
      abel
  · have hfail := h.ring.scDequeueBulk_fail (Nat.not_le.mp hn)
    refine ⟨mp, base, q, [], -enoent, ?_, h, ⟨rfl, rfl, rfl, rfl⟩, by simp,
      Or.inr ⟨rfl, by omega, rfl, rfl⟩⟩
    rw [mempoolGetRing, h.getRing, hfail]
    rfl

/-- A get from a cache that has enough objects. -/
theorem cacheTake (h : mp.Holds base q) (lcoreId : Fin rteMaxLcore) {c : MempoolCache α}
    {n : UInt32} (hn : n ≤ c.len) (hc : c.len - n ≤ mp.cacheFlushthresh) :
    ∃ mp' out, mempoolCacheTake mp lcoreId c n = (mp', out, 0) ∧ mp'.Holds base q ∧
      Kept mp mp' q q ∧ out.length = n.toNat ∧
      mp'.pooled + (out : Multiset α) + ((mp.localCache lcoreId).items : Multiset α) =
        mp.pooled + (c.items : Multiset α) := by
  have hholds := h.withCache lcoreId (c := { c with len := c.len - n }) hc
  refine ⟨_, _, rfl, hholds, ⟨rfl, rfl, rfl, rfl⟩, by simp, ?_⟩
  have hupdate := sum_items_update mp.localCache lcoreId { c with len := c.len - n }
  rw [hholds.pooled, h.pooled, c.take_items hn, add_right_comm, add_assoc _ _
    ((mp.localCache lcoreId).items : Multiset α), hupdate]
  abel

theorem enoent_ne_zero : (0 : Int32) ≠ -enoent := by decide

/-- A get that fills its cache from the ring first. -/
theorem getBackfill (h : mp.Holds base q) (lcoreId : Fin rteMaxLcore) {n req : UInt32}
    (hn : n < mp.cacheSize) (hlen : (mp.localCache lcoreId).len < n)
    (hreq : req = n + (mp.cacheSize - (mp.localCache lcoreId).len))
    (hring : req.toNat ≤ q.items.length) :
    ∃ mp' base' q' out, mempoolGetBulk mp lcoreId n true = .ok (mp', out, 0) ∧
      mp'.Holds base' q' ∧ Kept mp mp' q q' ∧ out.length = n.toNat ∧
      mp'.pooled + (out : Multiset α) = mp.pooled := by
  have hn' := UInt32.lt_iff_toNat_lt.mp hn
  have hlen' := UInt32.lt_iff_toNat_lt.mp hlen
  have hmax : rteMempoolCacheMaxSize.toNat = 512 := rfl
  have hsize := UInt32.le_iff_toNat_le.mp h.cacheSize
  have hflush := h.flushthresh
  have hfill : (mp.localCache lcoreId).len.toNat + req.toNat = n.toNat + mp.cacheSize.toNat := by
    rw [hreq, UInt32.toNat_add, UInt32.toNat_sub_of_le _ _ (UInt32.le_iff_toNat_le.mpr (by omega)),
      Nat.mod_eq_of_lt (by omega)]
    omega
  obtain ⟨r, base', hdeq, hr⟩ := h.ring.scDequeueBulk hring
  obtain ⟨c, hpush, hclen, hitems⟩ := (mp.localCache lcoreId).push_ok (n := req)
    (fun i => (q.items.take req.toNat).getD i ((mp.localCache lcoreId).objs i)) (by omega)
  have htaken : (List.range req.toNat).map (fun i =>
      (q.items.take req.toNat).getD i ((mp.localCache lcoreId).objs i)) =
        q.items.take req.toNat := by
    refine List.ext_getElem (by simpa using hring) fun i hi hi' => ?_
    simp only [List.getElem_map, List.getElem_range, List.getD_eq_getElem?_getD,
      List.getElem?_eq_getElem hi', Option.getD_some]
  have hle : n ≤ c.len := UInt32.le_iff_toNat_le.mpr (by omega)
  have hleft : c.len - n ≤ mp.cacheFlushthresh := by
    rw [UInt32.le_iff_toNat_le, UInt32.toNat_sub_of_le _ _ hle]
    omega
  obtain ⟨mp', out, htake, hholds, hkept, hout, hpooled⟩ :=
    (h.withRing hr).cacheTake lcoreId hle hleft
  refine ⟨mp', base', _, out, ?_, hholds, ⟨hkept.capacity, hkept.size, hkept.flags, hkept.cacheSize⟩,
    hout, ?_⟩
  · have hnot : ¬(mp.cacheSize = 0 ∨ true = false ∨ mp.cacheSize ≤ n) := by
      rintro (hz | hf | hge)
      · rw [hz] at hn'
        simp at hn'
      · cases hf
      · exact UInt32.not_le.mpr hn hge
    have hpos : ¬(0 : Int32) < 0 := by decide
    rw [mempoolGetBulk, if_neg hnot]
    simp only [if_pos hlen, ← hreq, h.ring.mcDoDequeue_eq, hdeq, spun, StepRun.ok_bind,
      if_neg hpos, hpush, htake]
  · have hsplit : (q.items : Multiset α) =
        (q.items.take req.toNat : Multiset α) + (q.items.drop req.toNat : Multiset α) := by
      rw [Multiset.coe_add, List.take_append_drop]
    rw [(h.withRing hr).pooled, hitems, htaken, ← Multiset.coe_add] at hpooled
    refine add_right_cancel (b := ((mp.localCache lcoreId).items : Multiset α)) (hpooled.trans ?_)
    rw [h.pooled, hsplit]
    abel

/-- A get is refused when the objects are neither in the ring nor in the cache of the lcore, and
takes them out of the pool otherwise. -/
structure Got (mp : RteMempool α) (q : BoundedQueue α) (lcoreId : Fin rteMaxLcore) (n : UInt32)
    (isMc : Bool) (mp' : RteMempool α) (out : List α) (ret : Int32) : Prop where
  holds : ∃ base' q', mp'.Holds base' q' ∧ Kept mp mp' q q'
  pooled : mp'.pooled + (out : Multiset α) = mp.pooled
  result : ret = 0 ∧ out.length = n.toNat ∨ ret = -enoent ∧ out = [] ∧ mp' = mp
  refused : ret = -enoent ↔ q.items.length < n.toNat ∧ (mp.cacheSize = 0 ∨ isMc = false ∨
    mp.cacheSize ≤ n ∨ (mp.localCache lcoreId).len < n)

theorem gotFromRing (h : mp.Holds base q) {lcoreId : Fin rteMaxLcore} {n : UInt32} {isMc : Bool}
    (hring : mp.cacheSize = 0 ∨ isMc = false ∨ mp.cacheSize ≤ n ∨
      (mp.localCache lcoreId).len < n) :
    ∃ mp' out ret, mempoolGetRing mp n isMc = .ok (mp', out, ret) ∧
      Got mp q lcoreId n isMc mp' out ret := by
  obtain ⟨mp', base', q', out, ret, hget, hholds, hkept, hpooled, hcase⟩ := h.getFromRing n isMc
  refine ⟨mp', out, ret, hget, ⟨base', q', hholds, hkept⟩, hpooled, ?_, ?_⟩
  · rcases hcase with ⟨hret, _, hout⟩ | ⟨hret, _, hout, hmp⟩
    · exact Or.inl ⟨hret, hout⟩
    · exact Or.inr ⟨hret, hout, hmp⟩
  · rcases hcase with ⟨hret, hle, _⟩ | ⟨hret, hlt, _⟩
    · refine ⟨fun hfail => absurd (hret.symm.trans hfail) enoent_ne_zero, fun hfail => ?_⟩
      omega
    · exact ⟨fun _ => ⟨hlt, hring⟩, fun _ => hret⟩

theorem get (h : mp.Holds base q) (lcoreId : Fin rteMaxLcore) (n : UInt32) (isMc : Bool) :
    ∃ mp' out ret, mempoolGetBulk mp lcoreId n isMc = .ok (mp', out, ret) ∧
      Got mp q lcoreId n isMc mp' out ret := by
  by_cases hdirect : mp.cacheSize = 0 ∨ isMc = false ∨ mp.cacheSize ≤ n
  · rw [mempoolGetBulk, if_pos hdirect]
    refine h.gotFromRing ?_
    rcases hdirect with hc | hc | hc
    · exact Or.inl hc
    · exact Or.inr (Or.inl hc)
    · exact Or.inr (Or.inr (Or.inl hc))
  obtain ⟨hsize, hmore⟩ := not_or.mp hdirect
  obtain ⟨hisMc, hlt⟩ := not_or.mp hmore
  have hisMc : isMc = true := by simpa using hisMc
  by_cases hlen : (mp.localCache lcoreId).len < n
  · by_cases hring : (n + (mp.cacheSize - (mp.localCache lcoreId).len)).toNat ≤ q.items.length
    · obtain ⟨mp', base', q', out, hget, hholds, hkept, hout, hpooled⟩ :=
        h.getBackfill lcoreId (UInt32.not_le.mp hlt) hlen rfl hring
      have hmore : n.toNat ≤ (n + (mp.cacheSize - (mp.localCache lcoreId).len)).toNat := by
        have hmax : rteMempoolCacheMaxSize.toNat = 512 := rfl
        have hle := UInt32.le_iff_toNat_le.mp h.cacheSize
        have hlt' := mt UInt32.le_iff_toNat_le.mpr hlt
        have hlen' := UInt32.lt_iff_toNat_lt.mp hlen
        rw [UInt32.toNat_add,
          UInt32.toNat_sub_of_le _ _ (UInt32.le_iff_toNat_le.mpr (by omega)),
          Nat.mod_eq_of_lt (by omega)]
        omega
      refine ⟨mp', out, 0, by rw [hisMc, hget], ⟨base', q', hholds, hkept⟩, hpooled,
        Or.inl ⟨rfl, hout⟩, fun hfail => absurd hfail enoent_ne_zero, fun hfail => ?_⟩
      omega
    · obtain ⟨mp', out, ret, hget, hgot⟩ :=
        h.gotFromRing (Or.inr (Or.inr (Or.inr hlen)))
      refine ⟨mp', out, ret, ?_, hgot⟩
      have hfail := h.ring.scDequeueBulk_fail (Nat.not_le.mp hring)
      have hneg : -enoent < 0 := by decide
      rw [mempoolGetBulk, if_neg hdirect]
      simp only [if_pos hlen, h.ring.mcDoDequeue_eq, hfail, spun, StepRun.ok_bind, if_pos hneg]
      exact hget
  · have hle : n ≤ (mp.localCache lcoreId).len := UInt32.not_lt.mp hlen
    have hleft : (mp.localCache lcoreId).len - n ≤ mp.cacheFlushthresh := by
      have hbound := UInt32.le_iff_toNat_le.mp (h.len lcoreId)
      rw [UInt32.le_iff_toNat_le, UInt32.toNat_sub_of_le _ _ hle]
      omega
    obtain ⟨mp', out, htake, hholds, hkept, hout, hpooled⟩ := h.cacheTake lcoreId hle hleft
    refine ⟨mp', out, 0, ?_, ⟨base, q, hholds, hkept⟩, add_right_cancel hpooled,
      Or.inl ⟨rfl, hout⟩, fun hfail => absurd hfail enoent_ne_zero, fun hfail => ?_⟩
    · rw [mempoolGetBulk, if_neg hdirect]
      simp only [if_neg hlen, htake]
    · rcases hfail.2 with hc | hc | hc | hc
      · exact absurd hc hsize
      · rw [hisMc] at hc
        cases hc
      · exact absurd hc hlt
      · exact absurd hc hlen

end RteMempool.Holds

end LearningSwitch
