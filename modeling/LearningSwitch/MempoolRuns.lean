import LearningSwitch.MempoolInvariant
import Mathlib.Data.Multiset.AddSub

namespace LearningSwitch

variable {α : Type}

theorem or_shiftRight_bounds {x : UInt32} (s : UInt32) (h : x.toNat < 2 ^ 31) :
    x.toNat ≤ (x ||| (x >>> s)).toNat ∧ (x ||| (x >>> s)).toNat < 2 ^ 31 := by
  rw [UInt32.toNat_or, UInt32.toNat_shiftRight, Nat.shiftRight_eq_div_pow]
  have hle := Nat.div_le_self x.toNat (2 ^ (s.toNat % 32))
  exact ⟨Nat.left_le_or, Nat.or_lt_two_pow h (by omega)⟩

theorem le_rteAlign32pow2 {x : UInt32} (hpos : 0 < x.toNat) (hle : x.toNat ≤ 2 ^ 31) :
    x.toNat ≤ (rteAlign32pow2 x).toNat := by
  have hone : (1 : UInt32).toNat = 1 := rfl
  have h0 : (x - 1).toNat = x.toNat - 1 := by
    rw [UInt32.toNat_sub_of_le _ _ (UInt32.le_iff_toNat_le.mpr (by omega)), hone]
  obtain ⟨h1, h1'⟩ := or_shiftRight_bounds (x := x - 1) 1 (by omega)
  obtain ⟨h2, h2'⟩ := or_shiftRight_bounds 2 h1'
  obtain ⟨h4, h4'⟩ := or_shiftRight_bounds 4 h2'
  obtain ⟨h8, h8'⟩ := or_shiftRight_bounds 8 h4'
  obtain ⟨h16, h16'⟩ := or_shiftRight_bounds 16 h8'
  simp only [rteAlign32pow2]
  rw [UInt32.toNat_add, hone, Nat.mod_eq_of_lt (by omega)]
  omega

/-- The loop of `rte_mempool_create` puts its objects in a ring that has room for them. -/
theorem RteRing.Holds.populate {r : RteRing α} {q : BoundedQueue α} (h : r.Holds 0 q)
    (hq : q.items = []) (objs : Nat → α) {k : Nat} (hk : k ≤ q.capacity) :
    ((List.range k).foldl (fun r i => (rteRingSpDoEnqueue r (fun _ => objs i) 1 .queueFixed).1)
      r).Holds 0 { q with items := (List.range k).map objs } := by
  induction k with
  | zero => rwa [List.range_zero, List.map_nil, ← hq]
  | succ k ih =>
    have hk' := ih (by omega)
    have hone : (1 : UInt32).toNat = 1 := rfl
    have hnext := hk'.spEnqueueBulk (fun _ => objs k) (n := 1) (by
      simp only [List.length_map, List.length_range, hone]
      omega)
    rw [List.range_succ, List.foldl_append, List.map_append]
    simpa [hone] using hnext

section Create

variable {memory : Option (Nat → α)} {zone : Bool} {null : α} {objs : Nat → α}
  {n cacheSize flags : UInt32} {mp : RteMempool α}

/-- A pool that was created holds its objects, in a ring with room for them all. -/
theorem rteMempoolCreate_holds
    (h : rteMempoolCreate memory zone null objs n cacheSize flags = some mp)
    (hn : n.toNat < 2 ^ 31) :
    ∃ q, mp.Holds 0 q ∧ n.toNat ≤ q.capacity ∧
      mp.pooled = ((List.range n.toNat).map objs : Multiset α) ∧ mp.size = n ∧
      mp.cacheSize = cacheSize := by
  unfold rteMempoolCreate at h
  split at h
  next => cases h
  next hcache =>
    obtain ⟨r, hr, h⟩ := Option.bind_eq_some_iff.mp h
    split at h
    next => cases h
    next =>
      have he := Option.some.inj h
      have hone : (1 : UInt32).toNat = 1 := rfl
      have hnext : (n + 1).toNat = n.toNat + 1 := by
        rw [UInt32.toNat_add, hone]
        exact Nat.mod_eq_of_lt (by omega)
      have halign := le_rteAlign32pow2 (x := n + 1) (by omega) (by omega)
      have hne : rteAlign32pow2 (n + 1) ≠ 0 := by
        intro hz
        rw [hz, UInt32.toNat_zero] at halign
        omega
      have hholds := (RteRing.Holds.create hr hne).populate rfl objs (k := n.toNat)
        (by simp only; omega)
      have hcache := UInt32.not_lt.mp hcache
      have hcacheLe := UInt32.le_iff_toNat_le.mp hcache
      have hmax : rteMempoolCacheMaxSize.toNat = 512 := rfl
      have hflush : (UInt32.ofNat (cacheSize.toNat * 3 / 2)).toNat = cacheSize.toNat * 3 / 2 := by
        rw [UInt32.toNat_ofNat']
        exact Nat.mod_eq_of_lt (by omega)
      have hempty : ∀ lcoreId, (mp.localCache lcoreId).len = 0 := by
        intro lcoreId
        rw [← he]
      have hmp : mp.Holds 0 { capacity := (rteAlign32pow2 (n + 1)).toNat - 1,
                              watermark := (rteAlign32pow2 (n + 1)).toNat,
                              items := (List.range n.toNat).map objs } := by
        refine ⟨by rw [← he]; exact hholds, by rw [← he]; exact hcache, ?_, fun lcoreId => ?_⟩
        · rw [← he]
          exact hflush
        · rw [hempty]
          exact UInt32.le_iff_toNat_le.mpr (Nat.zero_le _)
      refine ⟨_, hmp, ?_, ?_, by rw [← he], by rw [← he]⟩
      · simp only
        omega
      · rw [hmp.pooled]
        simp [MempoolCache.items, hempty]

end Create

/-- One object: `rte_mempool_get` and `rte_mempool_put`. -/
def rteMempoolGetOne (mp : RteMempool α) (lcoreId : Fin rteMaxLcore) :
    Except MempoolFault (RteMempool α × List α × Int32) :=
  rteMempoolGetBulk mp lcoreId 1

def rteMempoolPutOne (mp : RteMempool α) (lcoreId : Fin rteMaxLcore) (obj : α) :
    Except MempoolFault (RteMempool α) :=
  rteMempoolPutBulk mp lcoreId (fun _ => obj) 1

inductive MempoolOp (α : Type)
  | get (lcoreId : Fin rteMaxLcore) (n : UInt32)
  | put (lcoreId : Fin rteMaxLcore) (objTable : Nat → α) (n : UInt32)

/-- A pool, and the objects that were taken from it and not yet put back. -/
structure MempoolState (α : Type) where
  pool : RteMempool α
  held : Multiset α

/-- Every object is in the pool or in someone's hands, and the ring has room for all. -/
structure MempoolState.Inv (s : MempoolState α) (all : Multiset α) (cacheSize size : UInt32) :
    Prop where
  holds : ∃ base q, s.pool.Holds base q ∧ all.card ≤ q.capacity
  all : s.pool.pooled + s.held = all
  cacheSize : s.pool.cacheSize = cacheSize
  size : s.pool.size = size

theorem MempoolState.Inv.create {memory : Option (Nat → α)} {zone : Bool} {null : α}
    {objs : Nat → α} {n cacheSize flags : UInt32} {mp : RteMempool α}
    (h : rteMempoolCreate memory zone null objs n cacheSize flags = some mp)
    (hn : n.toNat < 2 ^ 31) :
    ({ pool := mp, held := 0 } : MempoolState α).Inv ((List.range n.toNat).map objs) cacheSize
      n := by
  obtain ⟨q, hholds, hcap, hpooled, hsize, hcache⟩ := rteMempoolCreate_holds h hn
  exact ⟨⟨0, q, hholds, by simpa using hcap⟩, by simpa using hpooled, hcache, hsize⟩

/-- A sum in 32 bits that does not pass the end of its range. -/
theorem toNat_foldl_add {ι : Type} (len : ι → UInt32) (ls : List ι) (count : UInt32)
    (h : count.toNat + (ls.map fun l => (len l).toNat).sum < 2 ^ 32) :
    (ls.foldl (fun count l => count + len l) count).toNat =
      count.toNat + (ls.map fun l => (len l).toNat).sum := by
  induction ls generalizing count with
  | nil => rfl
  | cons l ls ih =>
    simp only [List.map_cons, List.sum_cons] at h ⊢
    have hadd : (count + len l).toNat = count.toNat + (len l).toNat := by
      rw [UInt32.toNat_add, Nat.mod_eq_of_lt (by omega)]
    rw [List.foldl_cons, ih _ (by omega), hadd, Nat.add_assoc]

namespace RteMempool.Holds

variable {mp : RteMempool α} {base : Nat} {q : BoundedQueue α}

theorem count (h : mp.Holds base q) (hcard : mp.pooled.card ≤ mp.size.toNat) :
    (rteMempoolCount mp).toNat = mp.pooled.card := by
  have hring := h.ring.count
  have hsize := UInt32.toNat_lt mp.size
  rw [h.card_pooled, Fin.sum_univ_def] at hcard
  rw [h.card_pooled, Fin.sum_univ_def]
  by_cases hcache : mp.cacheSize = 0
  · have hflush := h.flushthresh
    have hempty : (List.finRange rteMaxLcore).map (fun l => (mp.localCache l).len.toNat) =
        (List.finRange rteMaxLcore).map (fun _ => 0) := by
      refine List.map_congr_left fun l _ => ?_
      have hle := UInt32.le_iff_toNat_le.mp (h.len l)
      rw [hcache, UInt32.toNat_zero] at hflush
      omega
    rw [rteMempoolCount, if_pos hcache, hring, hempty]
    simp
  · have hfold := toNat_foldl_add (fun l => (mp.localCache l).len) (List.finRange rteMaxLcore)
      (rteRingCount mp.ring) (by rw [hring]; omega)
    rw [hring] at hfold
    have hle : ¬mp.size < (List.finRange rteMaxLcore).foldl
        (fun count l => count + (mp.localCache l).len) (rteRingCount mp.ring) := by
      rw [UInt32.lt_iff_toNat_lt, hfold]
      omega
    rw [rteMempoolCount, if_neg hcache]
    simp only [if_neg hle, hfold]

theorem audit (h : mp.Holds base q) : mempoolAuditCache mp = true :=
  List.all_eq_true.mpr fun l _ => decide_eq_true (h.len l)

/-- The caches of all lcores together. -/
theorem sum_len_le (h : mp.Holds base q) :
    ∑ l, (mp.localCache l).len.toNat ≤ rteMaxLcore * (mp.cacheSize.toNat * 3 / 2) := by
  have hle := Finset.sum_le_card_nsmul Finset.univ (fun l => (mp.localCache l).len.toNat)
    (mp.cacheSize.toNat * 3 / 2) fun l _ => by
      rw [← h.flushthresh]
      exact UInt32.le_iff_toNat_le.mp (h.len l)
  simpa using hle

end RteMempool.Holds

section Runs

variable [DecidableEq α]

def mempoolStep (s : MempoolState α) : MempoolOp α → Except MempoolFault (MempoolState α)
  | .get lcoreId n => do
    let (pool, objs, _) ← rteMempoolGetBulk s.pool lcoreId n
    .ok { pool, held := s.held + (objs : Multiset α) }
  | .put lcoreId objTable n => do
    let pool ← rteMempoolPutBulk s.pool lcoreId objTable n
    .ok { pool, held := s.held - ((List.range n.toNat).map objTable : Multiset α) }

/-- Only what was taken is put back. -/
def MempoolState.Owns (s : MempoolState α) : MempoolOp α → Prop
  | .get .. => True
  | .put _ objTable n => ((List.range n.toNat).map objTable : Multiset α) ≤ s.held

instance (s : MempoolState α) : ∀ op, Decidable (s.Owns op)
  | .get .. => isTrue trivial
  | .put _ objTable n =>
    inferInstanceAs (Decidable (((List.range n.toNat).map objTable : Multiset α) ≤ s.held))

theorem MempoolState.Inv.step {s : MempoolState α} {all : Multiset α} {cacheSize size : UInt32}
    (h : s.Inv all cacheSize size) {op : MempoolOp α} (hop : s.Owns op) :
    ∃ s', mempoolStep s op = .ok s' ∧ s'.Inv all cacheSize size := by
  obtain ⟨base, q, hholds, hcap⟩ := h.holds
  have hall := h.all
  cases op with
  | get lcoreId n =>
    obtain ⟨mp', objs, ret, hget, hgot⟩ :=
      hholds.get lcoreId n (s.pool.flags &&& mempoolFScGet == 0)
    obtain ⟨base', q', hholds', hkept⟩ := hgot.holds
    refine ⟨{ pool := mp', held := s.held + (objs : Multiset α) }, ?_, ⟨base', q', hholds', ?_⟩,
      ?_, ?_, ?_⟩
    · simp only [mempoolStep, rteMempoolGetBulk, hget, StepRun.ok_bind]
    · rw [hkept.capacity]
      exact hcap
    · rw [← hall, ← hgot.pooled, add_assoc, add_comm (objs : Multiset α)]
    · exact hkept.cacheSize.trans h.cacheSize
    · exact hkept.size.trans h.size
  | put lcoreId objTable n =>
    have hle : ((List.range n.toNat).map objTable : Multiset α) ≤ s.held := hop
    have hcard := Multiset.card_le_card hle
    have hsum := congrArg Multiset.card hall
    rw [Multiset.card_add] at hsum
    have hn : ((List.range n.toNat).map objTable : Multiset α).card = n.toNat := by simp
    obtain ⟨mp', q', hput, hholds', hkept, hpooled⟩ :=
      hholds.put lcoreId objTable (n := n) (s.pool.flags &&& mempoolFSpPut == 0) (by omega)
    refine ⟨{ pool := mp', held := s.held - ((List.range n.toNat).map objTable : Multiset α) }, ?_,
      ⟨base, q', hholds', ?_⟩, ?_, ?_, ?_⟩
    · simp only [mempoolStep, rteMempoolPutBulk, hput, StepRun.ok_bind]
    · rw [hkept.capacity]
      exact hcap
    · rw [hpooled, add_assoc, add_tsub_cancel_of_le hle, hall]
    · exact hkept.cacheSize.trans h.cacheSize
    · exact hkept.size.trans h.size

variable {memory : Option (Nat → α)} {zone : Bool} {null : α} {objs : Nat → α}
  {n cacheSize flags : UInt32} {mp : RteMempool α} {ops : List (MempoolOp α)}

theorem MempoolState.inv_of_run
    (h : rteMempoolCreate memory zone null objs n cacheSize flags = some mp)
    (hn : n.toNat < 2 ^ 31)
    (ha : StepRun.Along mempoolStep MempoolState.Owns { pool := mp, held := 0 } ops) :
    ∃ s, StepRun.run mempoolStep { pool := mp, held := 0 } ops = .ok s ∧
      s.Inv ((List.range n.toNat).map objs) cacheSize n := by
  have keeps : ∀ (s : MempoolState α) (op : MempoolOp α),
      s.Inv ((List.range n.toNat).map objs) cacheSize n → s.Owns op →
      ∃ t, mempoolStep s op = .ok t ∧ t.Inv ((List.range n.toNat).map objs) cacheSize n :=
    fun _ _ hs hop => hs.step hop
  exact StepRun.run_ok_of_along keeps (MempoolState.Inv.create h hn) ha

/-- Over any sequence of gets and puts by the lcores no index leaves a cache, no call of the ring
waits for ever, and no object is lost or handed out twice. -/
theorem rte_mempool_conserves
    (h : rteMempoolCreate memory zone null objs n cacheSize flags = some mp)
    (hn : n.toNat < 2 ^ 31)
    (ha : StepRun.Along mempoolStep MempoolState.Owns { pool := mp, held := 0 } ops) :
    ∃ s, StepRun.run mempoolStep { pool := mp, held := 0 } ops = .ok s ∧
      s.pool.pooled + s.held = ((List.range n.toNat).map objs : Multiset α) := by
  obtain ⟨s, hs, hinv⟩ := MempoolState.inv_of_run h hn ha
  exact ⟨s, hs, hinv.all⟩

/-- What the pool counts is what is free, and its caches pass their audit. -/
theorem rte_mempool_counts
    (h : rteMempoolCreate memory zone null objs n cacheSize flags = some mp)
    (hn : n.toNat < 2 ^ 31)
    (ha : StepRun.Along mempoolStep MempoolState.Owns { pool := mp, held := 0 } ops)
    {s : MempoolState α}
    (hs : StepRun.run mempoolStep { pool := mp, held := 0 } ops = .ok s) :
    (rteMempoolCount s.pool).toNat = s.pool.pooled.card ∧
      (rteMempoolFreeCount s.pool).toNat = s.held.card ∧
      (rteMempoolFull s.pool = true ↔ s.held = 0) ∧
      (rteMempoolEmpty s.pool = true ↔ s.pool.pooled = 0) ∧
      mempoolAuditCache s.pool = true := by
  obtain ⟨_, ht, hinv⟩ := MempoolState.inv_of_run h hn ha
  cases Except.ok.inj (ht.symm.trans hs)
  obtain ⟨base, q, hholds, _⟩ := hinv.holds
  have hsum := congrArg Multiset.card hinv.all
  rw [Multiset.card_add, Multiset.coe_card, List.length_map, List.length_range] at hsum
  have hsize := hinv.size
  have hcount := hholds.count (by rw [hsize]; omega)
  have hle : rteMempoolCount s.pool ≤ s.pool.size := by
    rw [UInt32.le_iff_toNat_le, hcount, hsize]
    omega
  refine ⟨hcount, ?_, ?_, ?_, hholds.audit⟩
  · rw [rteMempoolFreeCount, UInt32.toNat_sub_of_le _ _ hle, hcount, hsize]
    omega
  · rw [rteMempoolFull, beq_iff_eq, ← UInt32.toNat_inj, hcount, hsize, ← Multiset.card_eq_zero]
    omega
  · rw [rteMempoolEmpty, beq_iff_eq, ← UInt32.toNat_inj, hcount, ← Multiset.card_eq_zero]
    rfl

/-- A get is refused exactly when the objects are neither in the ring nor in the cache of its
lcore, and never while what is held, what it asks for and what the caches can hold fit in the
pool. -/
theorem rte_mempool_get_refused
    (h : rteMempoolCreate memory zone null objs n cacheSize flags = some mp)
    (hn : n.toNat < 2 ^ 31)
    (ha : StepRun.Along mempoolStep MempoolState.Owns { pool := mp, held := 0 } ops)
    {s : MempoolState α}
    (hs : StepRun.run mempoolStep { pool := mp, held := 0 } ops = .ok s)
    (lcoreId : Fin rteMaxLcore) (wanted : UInt32) :
    ∃ mp' out ret, rteMempoolGetBulk s.pool lcoreId wanted = .ok (mp', out, ret) ∧
      (ret = 0 ∧ out.length = wanted.toNat ∨ ret = -enoent ∧ out = [] ∧ mp' = s.pool) ∧
      (ret = -enoent ↔ s.pool.ring.entries.length < wanted.toNat ∧
        (s.pool.cacheSize = 0 ∨ s.pool.flags &&& mempoolFScGet ≠ 0 ∨
          s.pool.cacheSize ≤ wanted ∨ (s.pool.localCache lcoreId).len < wanted)) ∧
      (s.held.card + wanted.toNat + rteMaxLcore * (cacheSize.toNat * 3 / 2) ≤ n.toNat →
        ret = 0) := by
  obtain ⟨_, ht, hinv⟩ := MempoolState.inv_of_run h hn ha
  cases Except.ok.inj (ht.symm.trans hs)
  obtain ⟨base, q, hholds, _⟩ := hinv.holds
  have hsum := congrArg Multiset.card hinv.all
  rw [Multiset.card_add, hholds.card_pooled, Multiset.coe_card, List.length_map,
    List.length_range] at hsum
  have hcaches := hholds.sum_len_le
  rw [hinv.cacheSize] at hcaches
  obtain ⟨mp', out, ret, hget, hgot⟩ :=
    hholds.get lcoreId wanted (s.pool.flags &&& mempoolFScGet == 0)
  refine ⟨mp', out, ret, hget, hgot.result, ?_, fun hroom => ?_⟩
  · rw [hgot.refused, hholds.ring.entries]
    simp
  · rcases hgot.result with ⟨hret, _⟩ | ⟨hret, _⟩
    · exact hret
    · have hshort := (hgot.refused.mp hret).1
      omega

end Runs

/-- Three objects, and caches of two that are flushed at three. -/
def poolOfThree : RteMempool Nat :=
  (rteMempoolCreate (some fun _ => 0) true 0 (fun i => 10 + i) 3 2 0).get (by decide)

theorem rteMempoolCreate_three :
    rteMempoolCreate (some fun _ => 0) true 0 (fun i => 10 + i) 3 2 0 = some poolOfThree :=
  (Option.some_get _).symm

/-- The first get fills the cache of lcore 0, the second finds neither ring nor cache, the put
goes to the cache of lcore 1, and the last get takes it from there. -/
def strandedObjects : List (MempoolOp Nat) :=
  [.get lcoreZero 1, .get lcoreOne 1, .put lcoreOne (fun _ => 12) 1, .get lcoreOne 1]

theorem rte_mempool_conserves_stranded :
    ∃ s, StepRun.run mempoolStep { pool := poolOfThree, held := 0 } strandedObjects = .ok s ∧
      s.pool.pooled + s.held = ((List.range 3).map (10 + ·) : Multiset Nat) :=
  rte_mempool_conserves rteMempoolCreate_three (by decide)
    (show StepRun.Along mempoolStep MempoolState.Owns _ strandedObjects by decide +kernel)

theorem rte_mempool_counts_stranded :
    ∃ s, StepRun.run mempoolStep { pool := poolOfThree, held := 0 } strandedObjects = .ok s ∧
      (rteMempoolCount s.pool).toNat = s.pool.pooled.card ∧
      (rteMempoolFreeCount s.pool).toNat = s.held.card ∧
      (rteMempoolFull s.pool = true ↔ s.held = 0) ∧
      (rteMempoolEmpty s.pool = true ↔ s.pool.pooled = 0) ∧
      mempoolAuditCache s.pool = true :=
  ⟨_, rfl, rte_mempool_counts rteMempoolCreate_three (by decide)
    (show StepRun.Along mempoolStep MempoolState.Owns _ strandedObjects by decide +kernel) rfl⟩

/-- Lcore 1 is refused although two of the three objects are free. -/
theorem rte_mempool_get_refused_stranded :
    ∃ s, StepRun.run mempoolStep { pool := poolOfThree, held := 0 } (strandedObjects.take 1) = .ok s ∧
      ∃ mp' out ret, rteMempoolGetBulk s.pool lcoreOne 1 = .ok (mp', out, ret) ∧
        (ret = 0 ∧ out.length = (1 : UInt32).toNat ∨ ret = -enoent ∧ out = [] ∧ mp' = s.pool) ∧
        (ret = -enoent ↔ s.pool.ring.entries.length < (1 : UInt32).toNat ∧
          (s.pool.cacheSize = 0 ∨ s.pool.flags &&& mempoolFScGet ≠ 0 ∨
            s.pool.cacheSize ≤ 1 ∨ (s.pool.localCache lcoreOne).len < 1)) ∧
        (s.held.card + (1 : UInt32).toNat + rteMaxLcore * ((2 : UInt32).toNat * 3 / 2) ≤
          (3 : UInt32).toNat → ret = 0) :=
  ⟨_, rfl, rte_mempool_get_refused rteMempoolCreate_three (by decide)
    (show StepRun.Along mempoolStep MempoolState.Owns _ (strandedObjects.take 1) by decide +kernel)
    rfl lcoreOne 1⟩

end LearningSwitch
