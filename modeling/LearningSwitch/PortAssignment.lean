import LearningSwitch.Setup
import Mathlib.Algebra.Order.BigOperators.Group.Finset
import Mathlib.Data.Fintype.Basic

namespace LearningSwitch

variable {n : Nat}

/-- The ports that an lcore polls. -/
def LcoreQueueConf.rxQueues (qconf : LcoreQueueConf n) : List UInt8 :=
  (List.ofFn qconf.rxQueueList).take qconf.nRxQueue.toNat

/-- The `while` loop passes over the lcore. -/
def Taken (lcores : Fin rteMaxLcore → Bool) (rxQueuePerLcore : UInt32) (confs : LcoreConfs n)
    (i : Fin rteMaxLcore) : Prop :=
  lcores i = true → (confs i).nRxQueue.toNat = rxQueuePerLcore.toNat

instance (lcores : Fin rteMaxLcore → Bool) (rxQueuePerLcore : UInt32) (confs : LcoreConfs n)
    (i : Fin rteMaxLcore) : Decidable (Taken lcores rxQueuePerLcore confs i) :=
  inferInstanceAs (Decidable (lcores i = true → _))

/-- The state between two ports: the lcores before the cursor are full or disabled, those behind
it are still empty, and the ports handled so far are spread over the lists. -/
structure Assigned (lcores : Fin rteMaxLcore → Bool) (rxQueuePerLcore : UInt32)
    (ports : List UInt8) (s : Assignment n) : Prop where
  cursor : s.rxLcoreId < rteMaxLcore
  count : ∀ p, ∑ i, (s.confs i).rxQueues.count p = ports.count p
  total : ∑ i, (s.confs i).nRxQueue.toNat = ports.length
  within : ∀ i, (s.confs i).nRxQueue.toNat ≤ rxQueuePerLcore.toNat
  enabled : ∀ i, (s.confs i).nRxQueue.toNat ≠ 0 → lcores i = true
  full : ∀ i : Fin rteMaxLcore, i.val < s.rxLcoreId → Taken lcores rxQueuePerLcore s.confs i
  fresh : ∀ i : Fin rteMaxLcore, s.rxLcoreId < i.val → (s.confs i).nRxQueue.toNat = 0

section

variable {lcores : Fin rteMaxLcore → Bool} {quota : UInt32}

theorem lcoreIndex_val (i : Fin rteMaxLcore) : lcoreIndex i.val = .ok i :=
  dif_pos i.isLt

theorem lcoreTaken_eq (confs : LcoreConfs n) {id : Nat} (h : id < rteMaxLcore) :
    lcoreTaken lcores quota confs id = .ok (decide (Taken lcores quota confs ⟨id, h⟩)) := by
  have hq : ((confs ⟨id, h⟩).nRxQueue.toUInt32 == quota) =
      decide ((confs ⟨id, h⟩).nRxQueue.toNat = quota.toNat) := by
    rw [← UInt16.toNat_toUInt32, Bool.eq_iff_iff, beq_iff_eq, decide_eq_true_iff, UInt32.toNat_inj]
  unfold lcoreTaken rteLcoreIsEnabled Taken
  rw [dif_pos h, lcoreIndex_val ⟨id, h⟩, StepRun.ok_bind, hq]
  by_cases hl : lcores ⟨id, h⟩ = true <;> simp [hl]

/-- The loop stops at the first enabled lcore with room, or exits when none is left. -/
theorem rxLcore_spec (lcores : Fin rteMaxLcore → Bool) (quota : UInt32) (confs : LcoreConfs n)
    {id : Nat} (h : id < rteMaxLcore) :
    (∃ i : Fin rteMaxLcore, id ≤ i.val ∧ rxLcore lcores quota confs id = .ok i.val ∧
      ¬Taken lcores quota confs i ∧
      ∀ j : Fin rteMaxLcore, id ≤ j.val → j.val < i.val → Taken lcores quota confs j) ∨
    (rxLcore lcores quota confs id = .error (.exit "Not enough cores\n") ∧
      ∀ j : Fin rteMaxLcore, id ≤ j.val → Taken lcores quota confs j) := by
  induction hd : rteMaxLcore - id generalizing id with
  | zero => omega
  | succ d ih =>
    rw [rxLcore, lcoreTaken_eq confs h, StepRun.ok_bind]
    by_cases htaken : Taken lcores quota confs ⟨id, h⟩
    · rw [if_pos (by simpa using htaken)]
      -- an lcore at or behind the cursor is the one at the cursor or behind the next
      have hnext : ∀ j : Fin rteMaxLcore, id ≤ j.val → j = ⟨id, h⟩ ∨ id + 1 ≤ j.val := by
        intro j hj
        rcases Nat.eq_or_lt_of_le hj with hj | hj
        · exact Or.inl (Fin.ext hj.symm)
        · exact Or.inr hj
      by_cases hlast : rteMaxLcore ≤ id + 1
      · rw [if_pos hlast]
        refine Or.inr ⟨rfl, fun j hj => ?_⟩
        rcases hnext j hj with rfl | hj
        · exact htaken
        · have := j.isLt
          omega
      · rw [if_neg hlast]
        have hmore : id + 1 < rteMaxLcore := by omega
        rcases ih hmore (by omega) with ⟨i, hi, hrun, hfree, hbefore⟩ | ⟨hrun, hall⟩
        · refine Or.inl ⟨i, by omega, hrun, hfree, fun j hj hlt => ?_⟩
          rcases hnext j hj with rfl | hj
          · exact htaken
          · exact hbefore j hj hlt
        · refine Or.inr ⟨hrun, fun j hj => ?_⟩
          rcases hnext j hj with rfl | hj
          · exact htaken
          · exact hall j hj
    · rw [if_neg (by simpa using htaken)]
      refine Or.inl ⟨⟨id, h⟩, le_rfl, rfl, htaken, fun j hj hlt => ?_⟩
      have hlt : j.val < id := hlt
      omega

/-- Changing one lcore changes a sum over all of them by that lcore's part. -/
theorem sum_update (f : LcoreQueueConf n → Nat) (confs : LcoreConfs n) (i : Fin rteMaxLcore)
    (qconf : LcoreQueueConf n) :
    f (confs i) + ∑ j, f (Function.update confs i qconf j) = f qconf + ∑ j, f (confs j) := by
  have hrest : ∑ j ∈ Finset.univ.erase i, f (Function.update confs i qconf j) =
      ∑ j ∈ Finset.univ.erase i, f (confs j) := by
    refine Finset.sum_congr rfl fun j hj => ?_
    rw [Function.update_of_ne (Finset.ne_of_mem_erase hj)]
  rw [← Finset.add_sum_erase Finset.univ _ (Finset.mem_univ i), hrest, Function.update_self,
    ← Finset.add_sum_erase Finset.univ (fun j => f (confs j)) (Finset.mem_univ i)]
  omega

theorem LcoreQueueConf.rxQueues_push (qconf : LcoreQueueConf n) (slot : Fin maxRxQueuePerLcore)
    (hslot : slot.val = qconf.nRxQueue.toNat) (portid : UInt8) :
    ({ qconf with
        rxQueueList := Function.update qconf.rxQueueList slot portid
        nRxQueue := qconf.nRxQueue + 1 } : LcoreQueueConf n).nRxQueue.toNat =
      qconf.nRxQueue.toNat + 1 ∧
    ({ qconf with
        rxQueueList := Function.update qconf.rxQueueList slot portid
        nRxQueue := qconf.nRxQueue + 1 } : LcoreQueueConf n).rxQueues =
      qconf.rxQueues ++ [portid] := by
  have hbound : slot.val < 16 := slot.isLt
  have hnext : (qconf.nRxQueue + 1).toNat = qconf.nRxQueue.toNat + 1 := by
    rw [UInt16.toNat_add, UInt16.toNat_one]
    omega
  refine ⟨hnext, ?_⟩
  unfold LcoreQueueConf.rxQueues
  rw [hnext, ← hslot]
  exact take_ofFn_update qconf.rxQueueList slot portid

variable {mask : UInt32} {ports : List UInt8} {s : Assignment n}

theorem Assigned.nRxQueue_le (h : Assigned lcores quota ports s) (i : Fin rteMaxLcore) :
    (s.confs i).nRxQueue.toNat ≤ ports.length := by
  rw [← h.total]
  exact Finset.single_le_sum (f := fun j => (s.confs j).nRxQueue.toNat)
    (fun j _ => Nat.zero_le _) (Finset.mem_univ i)

/-- The invariant after `qconf`, with one port more in its list, has replaced the queues of the
first lcore with room. -/
theorem Assigned.place (h : Assigned lcores quota ports s) {i : Fin rteMaxLcore}
    (hi : s.rxLcoreId ≤ i.val) (hfree : ¬Taken lcores quota s.confs i)
    (hbefore : ∀ j : Fin rteMaxLcore, s.rxLcoreId ≤ j.val → j.val < i.val →
      Taken lcores quota s.confs j)
    {qconf : LcoreQueueConf n} {portid : UInt8}
    (hnext : qconf.nRxQueue.toNat = (s.confs i).nRxQueue.toNat + 1)
    (hpush : qconf.rxQueues = (s.confs i).rxQueues ++ [portid]) :
    Assigned lcores quota (ports ++ [portid]) ⟨Function.update s.confs i qconf, i.val⟩ := by
  unfold Taken at hfree
  push Not at hfree
  obtain ⟨hon, hroom⟩ := hfree
  have hother : ∀ j, j ≠ i → Function.update s.confs i qconf j = s.confs j := fun j hj =>
    Function.update_of_ne hj _ _
  refine ⟨i.isLt, fun p => ?_, ?_, fun j => ?_, fun j hj => ?_, fun j hj => ?_, fun j hj => ?_⟩
  · have hsum := sum_update (fun q => q.rxQueues.count p) s.confs i qconf
    have hcount := h.count p
    simp only [hpush, List.count_append] at hsum ⊢
    omega
  · have hsum := sum_update (fun q => q.nRxQueue.toNat) s.confs i qconf
    have htotal := h.total
    rw [List.length_append, List.length_singleton]
    simp only [hnext] at hsum ⊢
    omega
  · by_cases hji : j = i
    · subst hji
      have hwithin := h.within j
      simp only [Function.update_self, hnext]
      omega
    · simp only [hother j hji]
      exact h.within j
  · by_cases hji : j = i
    · rw [hji]
      exact hon
    · simp only [hother j hji] at hj
      exact h.enabled j hj
  · have hji : j ≠ i := fun he => Nat.ne_of_lt hj (congrArg Fin.val he)
    simp only [Taken, hother j hji]
    rcases Nat.lt_or_ge j.val s.rxLcoreId with hlt | hge
    · exact h.full j hlt
    · exact hbefore j hge hj
  · have hji : j ≠ i := fun he => Nat.ne_of_gt hj (congrArg Fin.val he)
    simp only [hother j hji]
    exact h.fresh j (hi.trans_lt hj)

/-- One enabled port more: it goes to the first lcore with room from the cursor on, and the loop
exits only when every lcore is passed over. -/
theorem Assigned.assignPort (h : Assigned lcores quota ports s)
    (hlen : ports.length < maxRxQueuePerLcore) {portid : UInt8}
    (hmask : mask &&& ((1 : UInt32) <<< portid.toUInt32) ≠ 0) :
    (∃ s', assignPort lcores mask quota s portid = .ok s' ∧
      Assigned lcores quota (ports ++ [portid]) s') ∨
    (assignPort lcores mask quota s portid = .error (.exit "Not enough cores\n") ∧
      ∀ i, Taken lcores quota s.confs i) := by
  rw [LearningSwitch.assignPort, if_neg hmask]
  rcases rxLcore_spec lcores quota s.confs h.cursor with
    ⟨i, hi, hrun, hfree, hbefore⟩ | ⟨hrun, hall⟩
  · left
    have hslot : (s.confs i).nRxQueue.toNat < maxRxQueuePerLcore := (h.nRxQueue_le i).trans_lt hlen
    obtain ⟨hnext, hpush⟩ := LcoreQueueConf.rxQueues_push (s.confs i) ⟨_, hslot⟩ rfl portid
    have hindex : rxQueueIndex (s.confs i).nRxQueue = .ok ⟨_, hslot⟩ := dif_pos hslot
    simp only [hrun, StepRun.ok_bind, lcoreIndex_val, hindex]
    exact ⟨_, rfl, h.place hi hfree hbefore hnext hpush⟩
  · right
    rw [hrun, StepRun.error_bind]
    refine ⟨rfl, fun i => ?_⟩
    rcases Nat.lt_or_ge i.val s.rxLcoreId with hi | hi
    · exact h.full i hi
    · exact hall i hi

/-- The number of enabled lcores. -/
def lcoreCount (lcores : Fin rteMaxLcore → Bool) : Nat :=
  (Finset.univ.filter fun i => lcores i = true).card

theorem sum_quota (lcores : Fin rteMaxLcore → Bool) (q : Nat) :
    (∑ i, if lcores i = true then q else 0) = q * lcoreCount lcores := by
  rw [← Finset.sum_filter, Finset.sum_const_nat fun _ _ => rfl, Nat.mul_comm]
  rfl

theorem Assigned.length_le (h : Assigned lcores quota ports s) :
    ports.length ≤ quota.toNat * lcoreCount lcores := by
  rw [← h.total, ← sum_quota]
  refine Finset.sum_le_sum fun i _ => ?_
  split
  next => exact h.within i
  next hoff => exact Nat.le_of_not_lt fun hlt => hoff (h.enabled i (Nat.ne_of_gt hlt))

theorem Assigned.length_eq (h : Assigned lcores quota ports s)
    (hall : ∀ i, Taken lcores quota s.confs i) :
    ports.length = quota.toNat * lcoreCount lcores := by
  rw [← h.total, ← sum_quota]
  refine Finset.sum_congr rfl fun i _ => ?_
  split
  next hon => exact hall i hon
  next hoff => exact Nat.eq_zero_of_not_pos fun hlt => hoff (h.enabled i (Nat.ne_of_gt hlt))

/-- The enabled ports among the first `nbPorts`, in the order of the loops. -/
def enabledPorts (mask : UInt32) (nbPorts : Nat) : List UInt8 :=
  (portIds nbPorts).filter fun p => EnabledPort mask nbPorts p

/-- A run of the loop places the enabled ports of the list, or exits because they are more than
the lcores have room for. -/
theorem Assigned.run {nbPorts : Nat} (h : Assigned lcores quota ports s) (ids : List UInt8)
    (hids : ∀ p ∈ ids, p.toNat < nbPorts)
    (hlen : ports.length + ids.length ≤ maxRxQueuePerLcore) :
    (∃ s', StepRun.run (LearningSwitch.assignPort lcores mask quota) s ids = .ok s' ∧
      Assigned lcores quota (ports ++ ids.filter fun p => EnabledPort mask nbPorts p) s') ∨
    (StepRun.run (LearningSwitch.assignPort lcores mask quota) s ids =
        .error (.exit "Not enough cores\n") ∧
      quota.toNat * lcoreCount lcores <
        (ports ++ ids.filter fun p => EnabledPort mask nbPorts p).length) := by
  induction ids generalizing ports s with
  | nil => exact Or.inl ⟨s, rfl, by simpa using h⟩
  | cons p ids ih =>
    have hp := hids p (by simp)
    have hrest := fun q hq => hids q (List.mem_cons_of_mem p hq)
    rw [List.length_cons] at hlen
    rw [StepRun.run_cons]
    by_cases hmask : mask &&& ((1 : UInt32) <<< p.toUInt32) = 0
    · have hskip : ¬EnabledPort mask nbPorts p := fun he => he.2 hmask
      rw [LearningSwitch.assignPort, if_pos hmask, StepRun.ok_bind,
        List.filter_cons_of_neg (by simpa using hskip)]
      exact ih h hrest (by omega)
    · have hone : EnabledPort mask nbPorts p := ⟨hp, hmask⟩
      rw [List.filter_cons_of_pos (by simpa using hone), List.append_cons]
      rcases h.assignPort (by omega) hmask with ⟨s', hstep, h'⟩ | ⟨hstep, hall⟩
      · rw [hstep, StepRun.ok_bind]
        exact ih h' hrest (by rw [List.length_append, List.length_singleton]; omega)
      · right
        rw [hstep, StepRun.error_bind, ← h.length_eq hall]
        refine ⟨rfl, ?_⟩
        simp only [List.length_append, List.length_singleton]
        omega

end

theorem clampPorts_le (devCount : UInt8) : clampPorts devCount ≤ maxPorts := by
  unfold clampPorts
  split <;> omega

theorem mem_portIds {nbPorts : Nat} (h : nbPorts ≤ maxPorts) {p : UInt8} :
    p ∈ portIds nbPorts ↔ p.toNat < nbPorts := by
  have hmax : maxPorts = 16 := rfl
  unfold portIds
  rw [List.mem_map]
  constructor
  · intro h
    obtain ⟨k, hk, rfl⟩ := h
    have hk := List.mem_range.mp hk
    rw [UInt8.toNat_ofNat_of_lt' (by rw [UInt8.size]; omega)]
    exact hk
  · intro hp
    exact ⟨p.toNat, List.mem_range.mpr hp, UInt8.ofNat_toNat⟩

theorem portIds_nodup {nbPorts : Nat} (h : nbPorts ≤ maxPorts) : (portIds nbPorts).Nodup := by
  have hmax : maxPorts = 16 := rfl
  refine List.Nodup.map_on (fun a ha b hb hab => ?_) List.nodup_range
  have ha := List.mem_range.mp ha
  have hb := List.mem_range.mp hb
  have hval := congrArg UInt8.toNat hab
  rwa [UInt8.toNat_ofNat_of_lt' (by rw [UInt8.size]; omega),
    UInt8.toNat_ofNat_of_lt' (by rw [UInt8.size]; omega)] at hval

theorem mem_enabledPorts {mask : UInt32} {nbPorts : Nat} (h : nbPorts ≤ maxPorts) {p : UInt8} :
    p ∈ enabledPorts mask nbPorts ↔ EnabledPort mask nbPorts p := by
  rw [enabledPorts, List.mem_filter, mem_portIds h, decide_eq_true_iff]
  exact ⟨fun hp => hp.2, fun hp => ⟨hp.1, hp⟩⟩

theorem count_enabledPorts {mask : UInt32} {nbPorts : Nat} (h : nbPorts ≤ maxPorts) (p : UInt8) :
    (enabledPorts mask nbPorts).count p = if EnabledPort mask nbPorts p then 1 else 0 := by
  have hnodup : (enabledPorts mask nbPorts).Nodup := (portIds_nodup h).filter _
  rw [hnodup.count]
  simp only [mem_enabledPorts h]

section

variable {lcores : Fin rteMaxLcore → Bool} {mask quota : UInt32} {devCount : UInt8}
  {confs : LcoreConfs n}

theorem Assigned.init (hz : ∀ i, (confs i).nRxQueue = 0) : Assigned lcores quota [] ⟨confs, 0⟩ := by
  have hnat : ∀ i, (confs i).nRxQueue.toNat = 0 := fun i => by rw [hz i]; rfl
  refine ⟨Nat.zero_lt_succ 31, fun p => ?_, ?_, fun i => ?_, fun i hi => absurd (hnat i) hi,
    fun i hi => absurd hi (Nat.not_lt_zero i), fun i _ => hnat i⟩
  · exact Finset.sum_eq_zero fun i _ => by simp [LcoreQueueConf.rxQueues, hnat i]
  · exact Finset.sum_eq_zero fun i _ => hnat i
  · rw [hnat i]
    exact Nat.zero_le _

/-- The loop as a whole: it succeeds with every enabled port placed, or exits for want of room. -/
theorem assignPorts_cases (lcores : Fin rteMaxLcore → Bool) (mask quota : UInt32) (devCount : UInt8)
    (confs : LcoreConfs n) (hz : ∀ i, (confs i).nRxQueue = 0) :
    (∃ s, assignPorts lcores mask quota confs (clampPorts devCount) = .ok s ∧
      Assigned lcores quota (enabledPorts mask (clampPorts devCount)) s) ∨
    (assignPorts lcores mask quota confs (clampPorts devCount) =
        .error (.exit "Not enough cores\n") ∧
      quota.toNat * lcoreCount lcores < (enabledPorts mask (clampPorts devCount)).length) := by
  have hle := clampPorts_le devCount
  exact (Assigned.init hz).run (portIds (clampPorts devCount)) (fun p hp => (mem_portIds hle).mp hp)
    (by rw [List.length_nil, portIds, List.length_map, List.length_range, Nat.zero_add]; exact hle)

theorem Assigned.length_rxQueues {s : Assignment n}
    (h : Assigned lcores quota (enabledPorts mask (clampPorts devCount)) s) (i : Fin rteMaxLcore) :
    (s.confs i).rxQueues.length = (s.confs i).nRxQueue.toNat := by
  have hports : (enabledPorts mask (clampPorts devCount)).length ≤ clampPorts devCount := by
    refine (List.length_filter_le _ _).trans ?_
    simp [portIds]
  have hbound : (s.confs i).nRxQueue.toNat ≤ maxRxQueuePerLcore :=
    (h.nRxQueue_le i).trans (hports.trans (clampPorts_le devCount))
  rw [LcoreQueueConf.rxQueues, List.length_take, List.length_ofFn, Nat.min_eq_left hbound]

end

/-- The assignment loop exits exactly when the enabled ports are more than the enabled lcores have
room for. Otherwise each enabled port is in the list of one lcore, once, and no list is longer
than `rx_queue_per_lcore`. -/
theorem assignPorts_partition (lcores : Fin rteMaxLcore → Bool) (mask quota : UInt32)
    (devCount : UInt8) (confs : LcoreConfs n) (hz : ∀ i, (confs i).nRxQueue = 0) :
    (assignPorts lcores mask quota confs (clampPorts devCount) =
        .error (.exit "Not enough cores\n") ↔
      quota.toNat * lcoreCount lcores < (enabledPorts mask (clampPorts devCount)).length) ∧
    (∀ e, assignPorts lcores mask quota confs (clampPorts devCount) = .error e →
      e = .exit "Not enough cores\n") ∧
    ∀ s, assignPorts lcores mask quota confs (clampPorts devCount) = .ok s →
      (∀ p, ∑ i, (s.confs i).rxQueues.count p =
        if EnabledPort mask (clampPorts devCount) p then 1 else 0) ∧
      ∀ i, ((s.confs i).rxQueues ≠ [] → lcores i = true) ∧
        (s.confs i).rxQueues.length = (s.confs i).nRxQueue.toNat ∧
        (s.confs i).nRxQueue.toNat ≤ quota.toNat := by
  rcases assignPorts_cases lcores mask quota devCount confs hz with ⟨s, hrun, h⟩ | ⟨hrun, hmany⟩
  · rw [hrun]
    have hle := h.length_le
    refine ⟨⟨fun he => ?_, fun hlt => absurd hlt (Nat.not_lt.mpr hle)⟩, fun e he => ?_,
      fun s' hs => ?_⟩
    · cases he
    · cases he
    cases hs
    refine ⟨fun p => ?_, fun i => ⟨fun hi => ?_, h.length_rxQueues i, h.within i⟩⟩
    · rw [h.count p]
      exact count_enabledPorts (clampPorts_le devCount) p
    · refine h.enabled i fun hzero => hi ?_
      rw [LcoreQueueConf.rxQueues, hzero, List.take_zero]
  · rw [hrun]
    refine ⟨⟨fun _ => hmany, fun _ => rfl⟩, fun e he => ?_, fun s hs => ?_⟩
    · cases he
      rfl
    · cases hs

theorem assignPorts_partition_two :
    assignPorts (fun _ => true) 3 1 (fun _ => .zero 0) (clampPorts 2) ≠
      .error (.exit "Not enough cores\n") := by
  have h := (assignPorts_partition (fun _ => true) 3 1 2 (fun _ => .zero 0) fun _ => rfl).1
  intro he
  exact absurd (h.mp he) (by decide)

end LearningSwitch
