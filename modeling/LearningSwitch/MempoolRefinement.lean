import LearningSwitch.MempoolRuns
import LearningSwitch.Mbuf

namespace LearningSwitch

variable {n : Nat}

/-- A call of one lcore on the mempools of the switch. -/
inductive PoolCall (n : Nat)
  | get (lcoreId : Fin rteMaxLcore) (mp : Pool)
  | put (lcoreId : Fin rteMaxLcore) (m : Fin n)

/-- The three mempools, and what was done with them. -/
structure MbufPools (n : Nat) where
  pool : Pool → RteMempool (Fin n)
  log : List (Event n)

/-- What `__rte_mbuf_raw_alloc` makes of a get. -/
def rawAllocEvent (mp : Pool) (ret : Int32) : List (Fin n) → Event n
  | m :: _ => if ret < 0 then .getFailed mp else .get m
  | [] => .getFailed mp

def mbufPoolsStep (pools : Fin n → Pool) (s : MbufPools n) :
    PoolCall n → Except MempoolFault (MbufPools n)
  | .get lcoreId mp => do
    let (p, out, ret) ← rteMempoolGetOne (s.pool mp) lcoreId
    .ok { pool := Function.update s.pool mp p, log := s.log ++ [rawAllocEvent mp ret out] }
  | .put lcoreId m => do
    let p ← rteMempoolPutOne (s.pool (pools m)) lcoreId m
    .ok { pool := Function.update s.pool (pools m) p, log := s.log ++ [.put m] }

/-- An mbuf goes back only when it is out. -/
def MbufPools.Owns (pools : Fin n → Pool) (s : MbufPools n) : PoolCall n → Prop
  | .get .. => True
  | .put _ m => m ∉ (s.pool (pools m)).pooled

instance (pools : Fin n → Pool) (s : MbufPools n) : ∀ c, Decidable (s.Owns pools c)
  | .get .. => isTrue trivial
  | .put _ m => inferInstanceAs (Decidable (m ∉ (s.pool (pools m)).pooled))

/-- The same calls on the memory of the switch. -/
def worldPoolCall (w : World n) : PoolCall n → World n
  | .get _ mp => (rteMempoolGet w mp).2
  | .put _ m => rteMempoolPut w m

/-- What each get found, in order. -/
def getResults (log : List (Event n)) : List (Option (Fin n)) :=
  log.filterMap fun
    | .get m => some (some m)
    | .getFailed _ => some none
    | _ => none

def World.freeIn (w : World n) (mp : Pool) : Finset (Fin n) :=
  Finset.univ.filter fun m => w.pooled m = true ∧ (w.mbuf m).pool = mp

/-- The mempools hold the mbufs that are free in `w`, in rings with room for all of them. -/
structure MbufPools.Represents (s : MbufPools n) (pools : Fin n → Pool) (w : World n) : Prop where
  pool : ∀ m, (w.mbuf m).pool = pools m
  log : w.log = s.log
  gets : w.gets = (getResults s.log).length
  pooled : ∀ mp, (s.pool mp).pooled = (w.freeIn mp).val
  holds : ∀ mp, ∃ base q, (s.pool mp).Holds base q ∧
    (Finset.univ.filter fun m => pools m = mp).card ≤ q.capacity

theorem World.mem_freeIn {w : World n} {mp : Pool} {m : Fin n} :
    m ∈ w.freeIn mp ↔ w.pooled m = true ∧ (w.mbuf m).pool = mp := by
  simp [World.freeIn]

/-- Taking an mbuf out of its pool leaves the other pools alone. -/
theorem World.freeIn_take {w w' : World n} {m : Fin n} (hmbuf : w'.mbuf = w.mbuf)
    (hpooled : w'.pooled = Function.update w.pooled m false) (mp : Pool) :
    w'.freeIn mp = (w.freeIn mp).erase m := by
  ext k
  rw [Finset.mem_erase, World.mem_freeIn, World.mem_freeIn, hmbuf, hpooled]
  by_cases hk : k = m
  · simp [hk]
  · simp [hk]

theorem World.freeIn_give {w w' : World n} {m : Fin n} (hmbuf : w'.mbuf = w.mbuf)
    (hpooled : w'.pooled = Function.update w.pooled m true) (mp : Pool) :
    w'.freeIn mp = if (w.mbuf m).pool = mp then insert m (w.freeIn mp) else w.freeIn mp := by
  ext k
  by_cases hk : k = m
  · by_cases hm : (w.mbuf m).pool = mp
    · simp [World.mem_freeIn, hmbuf, hpooled, hk, hm]
    · simp [World.mem_freeIn, hmbuf, hpooled, hk, hm]
  · by_cases hm : (w.mbuf m).pool = mp
    · simp [World.mem_freeIn, hmbuf, hpooled, hk, hm]
    · simp [World.mem_freeIn, hmbuf, hpooled, hk, hm]

section Simulation

variable {pools : Fin n → Pool} {s s' : MbufPools n} {w : World n}

theorem getResults_append (log more : List (Event n)) :
    getResults (log ++ more) = getResults log ++ getResults more :=
  List.filterMap_append

/-- Replacing the pool that a call worked on. -/
theorem MbufPools.Represents.holds_update (h : s.Represents pools w) {mp : Pool}
    {p : RteMempool (Fin n)} (hp : ∃ base q, p.Holds base q ∧
      (Finset.univ.filter fun m => pools m = mp).card ≤ q.capacity) (other : Pool) :
    ∃ base q, (Function.update s.pool mp p other).Holds base q ∧
      (Finset.univ.filter fun m => pools m = other).card ≤ q.capacity := by
  by_cases hother : other = mp
  · subst hother
    rwa [Function.update_self]
  · rw [Function.update_of_ne hother]
    exact h.holds other

/-- A get of the mempools is a get of the world that picks what they found. -/
theorem MbufPools.Represents.get (h : s.Represents pools w) {lcoreId : Fin rteMaxLcore} {mp : Pool}
    (hstep : mbufPoolsStep pools s (.get lcoreId mp) = .ok s')
    (hpick : w.pick w.gets = ((getResults s'.log)[w.gets]?).join) :
    s'.Represents pools (worldPoolCall w (.get lcoreId mp)) := by
  obtain ⟨base, q, hholds, hcap⟩ := h.holds mp
  obtain ⟨p, out, ret, hget, hgot⟩ :=
    hholds.get lcoreId 1 ((s.pool mp).flags &&& mempoolFScGet == 0)
  obtain ⟨base', q', hholds', hkept⟩ := hgot.holds
  have hp := h.holds_update ⟨base', q', hholds', hkept.capacity ▸ hcap⟩
  simp only [mbufPoolsStep, rteMempoolGetOne, rteMempoolGetBulk, hget, StepRun.ok_bind] at hstep
  cases Except.ok.inj hstep
  simp only [getResults_append, h.gets, List.getElem?_append_right (Nat.le_refl _),
    Nat.sub_self] at hpick
  have hpooled := hgot.pooled
  rw [h.pooled] at hpooled
  rcases hgot.result with ⟨rfl, hlen⟩ | ⟨rfl, rfl, rfl⟩
  · obtain ⟨m, rfl⟩ := List.length_eq_one_iff.mp hlen
    have hpos : ¬(0 : Int32) < 0 := by decide
    have hevent : rawAllocEvent mp 0 [m] = .get m := by
      rw [rawAllocEvent, if_neg hpos]
    rw [hevent] at hpick ⊢
    have hpick : w.pick (getResults s.log).length = some m := hpick
    have hmem : m ∈ w.freeIn mp := by
      rw [← Finset.mem_val, ← hpooled]
      simp
    have hworld : worldPoolCall w (.get lcoreId mp) = World.emit { w with
        gets := w.gets + 1, pooled := Function.update w.pooled m false } (.get m) := by
      rw [worldPoolCall, rteMempoolGet, h.gets, hpick]
      simp only [if_pos (World.mem_freeIn.mp hmem)]
    have hmbuf : (worldPoolCall w (.get lcoreId mp)).mbuf = w.mbuf := by rw [hworld]; rfl
    have hout : (worldPoolCall w (.get lcoreId mp)).pooled = Function.update w.pooled m false := by
      rw [hworld]
      rfl
    have hfreeIn := World.freeIn_take hmbuf hout
    rw [hworld] at hfreeIn ⊢
    refine ⟨h.pool, ?_, ?_, fun other => ?_, hp⟩
    · exact congrArg (· ++ [Event.get m]) h.log
    · rw [getResults_append, List.length_append, ← h.gets]
      rfl
    · show (Function.update s.pool mp p other).pooled = _
      rw [hfreeIn]
      by_cases hother : other = mp
      · subst hother
        rw [Function.update_self, Finset.erase_val, ← hpooled]
        simp [Multiset.erase_add_right_pos]
      · have hnot : m ∉ w.freeIn other := fun hm =>
          hother ((World.mem_freeIn.mp hm).2.symm.trans (World.mem_freeIn.mp hmem).2)
        rw [Function.update_of_ne hother, Finset.erase_eq_of_notMem hnot, h.pooled]
  · have hpick : w.pick (getResults s.log).length = none := hpick
    have hworld : worldPoolCall w (.get lcoreId mp) =
        World.emit { w with gets := w.gets + 1 } (.getFailed mp) := by
      rw [worldPoolCall, rteMempoolGet, h.gets, hpick]
    rw [hworld]
    refine ⟨h.pool, ?_, ?_, fun other => ?_, hp⟩
    · exact congrArg (· ++ [Event.getFailed mp]) h.log
    · rw [getResults_append, List.length_append, ← h.gets]
      rfl
    · show (Function.update s.pool mp (s.pool mp) other).pooled = _
      rw [Function.update_eq_self]
      exact h.pooled other

theorem MbufPools.Represents.put (h : s.Represents pools w) {lcoreId : Fin rteMaxLcore} {m : Fin n}
    (hout : s.Owns pools (.put lcoreId m)) :
    ∃ s', mbufPoolsStep pools s (.put lcoreId m) = .ok s' ∧
      s'.Represents pools (worldPoolCall w (.put lcoreId m)) := by
  obtain ⟨base, q, hholds, hcap⟩ := h.holds (pools m)
  have hout : m ∉ w.freeIn (pools m) := by
    rw [← Finset.mem_val, ← h.pooled]
    exact hout
  have hone : (1 : UInt32).toNat = 1 := rfl
  have hfree : insert m (w.freeIn (pools m)) ⊆ Finset.univ.filter fun k => pools k = pools m := by
    intro k hk
    rw [Finset.mem_filter]
    rcases Finset.mem_insert.mp hk with rfl | hk
    · simp
    · exact ⟨Finset.mem_univ k, (h.pool k).symm.trans (World.mem_freeIn.mp hk).2⟩
  have hcard := Finset.card_le_card hfree
  rw [Finset.card_insert_of_notMem hout, Finset.card_def, ← h.pooled] at hcard
  obtain ⟨p, q', hput, hholds', hkept, hpooled⟩ := hholds.put lcoreId (fun _ => m) (n := 1)
    ((s.pool (pools m)).flags &&& mempoolFSpPut == 0) (by omega)
  have hp := h.holds_update ⟨base, q', hholds', hkept.capacity ▸ hcap⟩
  refine ⟨{ pool := Function.update s.pool (pools m) p, log := s.log ++ [.put m] }, ?_, h.pool, ?_,
    ?_, fun other => ?_, hp⟩
  · simp only [mbufPoolsStep, rteMempoolPutOne, rteMempoolPutBulk, hput, StepRun.ok_bind]
  · exact congrArg (· ++ [Event.put m]) h.log
  · rw [getResults_append, List.length_append, ← h.gets]
    rfl
  · have hfreeIn := World.freeIn_give (w := w) (m := m)
      (show (worldPoolCall w (.put lcoreId m)).mbuf = w.mbuf from rfl) rfl other
    show (Function.update s.pool (pools m) p other).pooled = _
    rw [hfreeIn, h.pool]
    by_cases hother : other = pools m
    · subst hother
      rw [if_pos rfl, Function.update_self, Finset.insert_val_of_notMem hout, hpooled, h.pooled,
        hone]
      simp [Multiset.singleton_add, add_comm]
    · rw [if_neg (Ne.symm hother), Function.update_of_ne hother, h.pooled]

theorem getResults_rawAllocEvent (mp : Pool) (ret : Int32) (out : List (Fin n)) :
    ∃ r, getResults [rawAllocEvent mp ret out] = [r] := by
  cases out with
  | nil => exact ⟨none, rfl⟩
  | cons m out =>
    by_cases hret : ret < 0
    · exact ⟨none, by rw [rawAllocEvent, if_pos hret]; rfl⟩
    · exact ⟨some m, by rw [rawAllocEvent, if_neg hret]; rfl⟩

theorem MbufPools.Represents.get_ok (h : s.Represents pools w) (lcoreId : Fin rteMaxLcore)
    (mp : Pool) : ∃ s' e r, mbufPoolsStep pools s (.get lcoreId mp) = .ok s' ∧
      s'.log = s.log ++ [e] ∧ getResults [e] = [r] := by
  obtain ⟨base, q, hholds, _⟩ := h.holds mp
  obtain ⟨p, out, ret, hget, _⟩ :=
    hholds.get lcoreId 1 ((s.pool mp).flags &&& mempoolFScGet == 0)
  obtain ⟨r, hr⟩ := getResults_rawAllocEvent mp ret out
  refine ⟨{ pool := Function.update s.pool mp p, log := s.log ++ [rawAllocEvent mp ret out] }, _, r,
    ?_, rfl, hr⟩
  simp only [mbufPoolsStep, rteMempoolGetOne, rteMempoolGetBulk, hget, StepRun.ok_bind]

theorem MbufPools.Represents.withPick (h : s.Represents pools w) (pick : Nat → Option (Fin n)) :
    s.Represents pools { w with pick } :=
  ⟨h.pool, h.log, h.gets, h.pooled, h.holds⟩

/-- A call looks at no more of `pick` than what it finds itself. -/
theorem worldPoolCall_withPick (pick pick' : Nat → Option (Fin n))
    (hp : pick w.gets = pick' w.gets) (c : PoolCall n) :
    worldPoolCall { w with pick } c = { worldPoolCall { w with pick := pick' } c with pick } := by
  cases c with
  | get lcoreId mp =>
    simp only [worldPoolCall, rteMempoolGet, hp]
    split
    next => rfl
    next =>
      split
      next => rfl
      next => rfl
  | put lcoreId m => rfl

/-- A run of the mempools is a run of the world whose `pick` lists what the mempools found. -/
theorem MbufPools.Represents.run (h : s.Represents pools w) {calls : List (PoolCall n)}
    (ha : StepRun.Along (mbufPoolsStep pools) (MbufPools.Owns pools) s calls) :
    ∃ s' more, StepRun.run (mbufPoolsStep pools) s calls = .ok s' ∧ s'.log = s.log ++ more ∧
      ∀ pick : Nat → Option (Fin n), (∀ i, pick i = ((getResults s'.log)[i]?).join) →
        s'.Represents pools (calls.foldl worldPoolCall { w with pick }) := by
  induction calls generalizing s w with
  | nil => exact ⟨s, [], rfl, (List.append_nil _).symm, fun pick _ => h.withPick pick⟩
  | cons c calls ih =>
    cases c with
    | get lcoreId mp =>
      obtain ⟨t, e, r, ht, hlog, hr⟩ := h.get_ok lcoreId mp
      have hfound : (getResults t.log)[w.gets]? = some r := by
        rw [hlog, getResults_append, h.gets, hr, List.getElem?_append_right (Nat.le_refl _),
          Nat.sub_self]
        rfl
      have hrep := (h.withPick fun _ => r).get ht (by rw [hfound]; rfl)
      obtain ⟨s', more, hrun, hmore, hend⟩ := ih hrep (ha.2 t ht)
      refine ⟨s', e :: more, StepRun.run_cons_ok.mpr ⟨t, ht, hrun⟩, ?_, fun pick hpick => ?_⟩
      · rw [hmore, hlog, List.append_assoc]
        rfl
      · have hlt : w.gets < (getResults t.log).length :=
          (List.getElem?_eq_some_iff.mp hfound).1
        have hnow : pick w.gets = r := by
          rw [hpick, hmore, getResults_append, List.getElem?_append_left hlt]
          exact congrArg Option.join hfound
        rw [List.foldl_cons, worldPoolCall_withPick pick (fun _ => r) hnow]
        exact hend pick hpick
    | put lcoreId m =>
      obtain ⟨t, ht, hrep⟩ := h.put ha.1
      obtain ⟨s', more, hrun, hmore, hend⟩ := ih hrep (ha.2 t ht)
      have hput : t.log = s.log ++ [.put m] := hrep.log.symm.trans (congrArg (· ++ _) h.log)
      refine ⟨s', .put m :: more, StepRun.run_cons_ok.mpr ⟨t, ht, hrun⟩, ?_, fun pick hpick => ?_⟩
      · rw [hmore, hput, List.append_assoc]
        rfl
      · exact hend pick hpick

end Simulation

section Created

variable {pools : Fin n → Pool} {memory : Pool → Option (Nat → Fin n)} {zone : Pool → Bool}
  {null : Fin n} {objs : Pool → Nat → Fin n} {size cacheSize flags : Pool → UInt32}
  {pool : Pool → RteMempool (Fin n)} {calls : List (PoolCall n)}

/-- Created pools, each with its own mbufs, stand for the memory that `init_eal` leaves. -/
theorem MbufPools.Represents.create (pick : Nat → Option (Fin n)) (txRoom : Nat → Nat)
    (hcreate : ∀ mp, rteMempoolCreate (memory mp) (zone mp) null (objs mp) (size mp) (cacheSize mp)
      (flags mp) = some (pool mp))
    (hsize : ∀ mp, (size mp).toNat < 2 ^ 31)
    (hobjs : ∀ mp, ((List.range (size mp).toNat).map (objs mp) : Multiset (Fin n)) =
      (Finset.univ.filter fun m => pools m = mp).val) :
    MbufPools.Represents { pool, log := [] } pools (initEal pools pick txRoom) := by
  refine ⟨fun m => rfl, rfl, rfl, fun mp => ?_, fun mp => ?_⟩
  · obtain ⟨q, _, _, hpooled, _⟩ := rteMempoolCreate_holds (hcreate mp) (hsize mp)
    rw [hpooled, hobjs]
    simp [World.freeIn, initEal, rtePktmbufInit]
  · obtain ⟨q, hholds, hcap, _⟩ := rteMempoolCreate_holds (hcreate mp) (hsize mp)
    refine ⟨0, q, hholds, ?_⟩
    have hcard := congrArg Multiset.card (hobjs mp)
    rw [Multiset.coe_card, List.length_map, List.length_range, Finset.card_val] at hcard
    omega

/-- As long as the lcores put back only mbufs that are out, what they do with the three mempools,
rings and caches, is a run of the memory of the switch: same results in the same order, and the
same mbufs free at the end. -/
theorem mbuf_pools_refined (txRoom : Nat → Nat)
    (hcreate : ∀ mp, rteMempoolCreate (memory mp) (zone mp) null (objs mp) (size mp) (cacheSize mp)
      (flags mp) = some (pool mp))
    (hsize : ∀ mp, (size mp).toNat < 2 ^ 31)
    (hobjs : ∀ mp, ((List.range (size mp).toNat).map (objs mp) : Multiset (Fin n)) =
      (Finset.univ.filter fun m => pools m = mp).val)
    (ha : StepRun.Along (mbufPoolsStep pools) (MbufPools.Owns pools) { pool, log := [] } calls) :
    ∃ s w, StepRun.run (mbufPoolsStep pools) { pool, log := [] } calls = .ok s ∧
      w = calls.foldl worldPoolCall
        (initEal pools (fun i => ((getResults s.log)[i]?).join) txRoom) ∧
      w.log = s.log ∧ ∀ mp, (s.pool mp).pooled = (w.freeIn mp).val := by
  have hrep := MbufPools.Represents.create (fun _ => none) txRoom hcreate hsize hobjs
  obtain ⟨s, _, hrun, _, hend⟩ := hrep.run ha
  have hlast := hend (fun i => ((getResults s.log)[i]?).join) fun _ => rfl
  exact ⟨s, _, hrun, rfl, hlast.log, hlast.pooled⟩

end Created

/-- Two packet mbufs, a header and a clone. -/
def poolsOfFour : Fin 4 → Pool := fun m => if m < 2 then .packet else if m = 2 then .header else .clone

def objsOfFour : Pool → Nat → Fin 4
  | .packet, i => .ofNat 4 i
  | .header, _ => 2
  | .clone, _ => 3

def sizeOfFour : Pool → UInt32
  | .packet => 2
  | .header => 1
  | .clone => 1

def createFour (mp : Pool) : RteMempool (Fin 4) :=
  (rteMempoolCreate (some fun _ => 0) true 0 (objsOfFour mp) (sizeOfFour mp) 2 0).get
    (by cases mp <;> decide)

/-- The second clone is refused, and the packet mbuf comes back from the cache of lcore 0. -/
def callsOfFour : List (PoolCall 4) :=
  [.get lcoreZero .packet, .get lcoreOne .clone, .get lcoreZero .clone,
   .get lcoreZero .packet, .put lcoreZero 1, .get lcoreZero .packet]

theorem mbuf_pools_refined_four : ∃ s w,
    StepRun.run (mbufPoolsStep poolsOfFour) { pool := createFour, log := [] } callsOfFour = .ok s ∧
      w = callsOfFour.foldl worldPoolCall
        (initEal poolsOfFour (fun i => ((getResults s.log)[i]?).join) (fun _ => 0)) ∧
      w.log = s.log ∧ ∀ mp, (s.pool mp).pooled = (w.freeIn mp).val :=
  mbuf_pools_refined (fun _ => 0) (fun _ => (Option.some_get _).symm)
    (fun mp => by cases mp <;> decide) (fun mp => by cases mp <;> decide)
    (show StepRun.Along (mbufPoolsStep poolsOfFour) (MbufPools.Owns poolsOfFour) _ callsOfFour by
      decide +kernel)

end LearningSwitch
