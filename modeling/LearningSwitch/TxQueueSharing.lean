import LearningSwitch.PortAssignment

namespace LearningSwitch

variable {n : Nat}

/-- The queue of the port that `send_burst` transmits on. -/
def LcoreQueueConf.txQueue (qconf : LcoreQueueConf n) (port : UInt8) : Except Fault UInt16 := do
  let p ← portIndex port
  .ok (qconf.txQueueId p)

/-- On every enabled port, any two lcores that poll a port transmit on different queues, and both
queues were set up. -/
def DedicatedTxQueues (mask : UInt32) (nbPorts : Nat) (confs : LcoreConfs n)
    (calls : List DevCall) : Prop :=
  ∀ i j, i ≠ j → (confs i).nRxQueue ≠ 0 → (confs j).nRxQueue ≠ 0 →
    ∀ port, EnabledPort mask nbPorts port → ∃ q r,
      (confs i).txQueue port = .ok q ∧ (confs j).txQueue port = .ok r ∧ (port, q) ≠ (port, r) ∧
      .txQueueSetup port q ∈ calls ∧ .txQueueSetup port r ∈ calls

section

variable {lcores : Fin rteMaxLcore → Bool} {mask quota : UInt32} {s s' : Assignment n}

theorem assignPort_txQueueId {portid : UInt8} (h : assignPort lcores mask quota s portid = .ok s')
    (i : Fin rteMaxLcore) : (s'.confs i).txQueueId = (s.confs i).txQueueId := by
  unfold assignPort at h
  split at h
  next =>
    cases h
    rfl
  next =>
    obtain ⟨id, _, h⟩ := StepRun.bind_eq_ok.mp h
    obtain ⟨j, _, h⟩ := StepRun.bind_eq_ok.mp h
    obtain ⟨slot, _, h⟩ := StepRun.bind_eq_ok.mp h
    cases h
    by_cases hij : i = j
    · subst hij
      simp
    · simp [hij]

/-- The assignment loop never writes a queue id. -/
theorem assignPorts_txQueueId {ids : List UInt8}
    (h : StepRun.run (assignPort lcores mask quota) s ids = .ok s') (i : Fin rteMaxLcore) :
    (s'.confs i).txQueueId = (s.confs i).txQueueId := by
  induction ids generalizing s with
  | nil =>
    cases h
    rfl
  | cons p ids ih =>
    obtain ⟨t, ht, h⟩ := StepRun.run_cons_ok.mp h
    rw [ih h, assignPort_txQueueId ht i]

theorem devCall_ok {dev : Devices} {what : String} {portid : UInt8} {calls calls' : List DevCall}
    {call : DevCall} (h : devCall dev what portid calls call = .ok calls') :
    calls' = calls ++ [call] := by
  unfold devCall at h
  simp only at h
  split at h
  next => cases h
  next => exact (Except.ok.inj h).symm

/-- Each enabled port gets one TX queue, number 0. -/
theorem initPort_ok {dev : Devices} {calls calls' : List DevCall} {portid : UInt8}
    (h : initPort mask dev calls portid = .ok calls') : ∃ es, calls' = calls ++ es ∧
      (mask &&& ((1 : UInt32) <<< portid.toUInt32) ≠ 0 → .txQueueSetup portid 0 ∈ es) := by
  unfold initPort at h
  split at h
  next hmask =>
    cases h
    exact ⟨[], (List.append_nil _).symm, fun hne => absurd hmask hne⟩
  next =>
    obtain ⟨_, h1, h⟩ := StepRun.bind_eq_ok.mp h
    obtain ⟨_, h2, h⟩ := StepRun.bind_eq_ok.mp h
    obtain ⟨_, h3, h⟩ := StepRun.bind_eq_ok.mp h
    obtain ⟨_, h4, h⟩ := StepRun.bind_eq_ok.mp h
    cases h
    rw [devCall_ok h4, devCall_ok h3, devCall_ok h2, devCall_ok h1]
    simp only [List.append_assoc]
    exact ⟨_, rfl, fun _ => by simp⟩

theorem initPorts_txQueueSetup {dev : Devices} {calls calls' : List DevCall} {ids : List UInt8}
    (h : StepRun.run (initPort mask dev) calls ids = .ok calls') :
    (∀ c ∈ calls, c ∈ calls') ∧ ∀ p ∈ ids, mask &&& ((1 : UInt32) <<< p.toUInt32) ≠ 0 →
      .txQueueSetup p 0 ∈ calls' := by
  induction ids generalizing calls with
  | nil =>
    cases h
    exact ⟨fun c hc => hc, by simp⟩
  | cons p ids ih =>
    obtain ⟨next, hnext, h⟩ := StepRun.run_cons_ok.mp h
    obtain ⟨es, rfl, hes⟩ := initPort_ok hnext
    obtain ⟨hkeep, hrest⟩ := ih h
    refine ⟨fun c hc => hkeep c (List.mem_append_left es hc), fun q hq hmask => ?_⟩
    rcases List.mem_cons.mp hq with rfl | hq
    · exact hkeep _ (List.mem_append_right calls (hes hmask))
    · exact hrest q hq hmask

variable {ports : List UInt8}

theorem Assigned.add_le (h : Assigned lcores quota ports s) {i j : Fin rteMaxLcore} (hij : j ≠ i) :
    (s.confs i).nRxQueue.toNat + (s.confs j).nRxQueue.toNat ≤ ports.length := by
  have hrest := Finset.single_le_sum (f := fun k => (s.confs k).nRxQueue.toNat)
    (fun k _ => Nat.zero_le _) (Finset.mem_erase.mpr ⟨hij, Finset.mem_univ j⟩)
  rw [← h.total, ← Finset.add_sum_erase Finset.univ _ (Finset.mem_univ i)]
  omega

/-- Ports that fit one lcore go to one lcore. -/
theorem Assigned.one_lcore (h : Assigned lcores quota ports s) (hlen : ports.length ≤ quota.toNat)
    {i j : Fin rteMaxLcore} (hi : (s.confs i).nRxQueue.toNat ≠ 0)
    (hj : (s.confs j).nRxQueue.toNat ≠ 0) : i = j := by
  -- a second lcore is reached only when the first is full
  have hbelow : ∀ k l : Fin rteMaxLcore, k.val < l.val → (s.confs k).nRxQueue.toNat ≠ 0 →
      (s.confs l).nRxQueue.toNat = 0 := by
    intro k l hkl hk
    by_contra hl
    have hcursor : l.val ≤ s.rxLcoreId := Nat.le_of_not_lt fun hlt => hl (h.fresh l hlt)
    have hfull := h.full k (by omega) (h.enabled k hk)
    have hsum := h.add_le (i := k) (j := l) fun he => Nat.ne_of_gt hkl (congrArg Fin.val he)
    omega
  rcases Nat.lt_trichotomy i.val j.val with hlt | heq | hgt
  · exact absurd (hbelow i j hlt hi) hj
  · exact Fin.ext heq
  · exact absurd (hbelow j i hgt hj) hi

/-- More ports than fit one lcore go to two lcores at least. -/
theorem Assigned.two_lcores (h : Assigned lcores quota ports s)
    (hlen : quota.toNat < ports.length) :
    ∃ i j, i ≠ j ∧ (s.confs i).nRxQueue.toNat ≠ 0 ∧ (s.confs j).nRxQueue.toNat ≠ 0 := by
  have hsome : ∑ k, (s.confs k).nRxQueue.toNat ≠ 0 := by
    rw [h.total]
    omega
  obtain ⟨i, _, hi⟩ := Finset.exists_ne_zero_of_sum_ne_zero hsome
  have hothers : ∑ k ∈ Finset.univ.erase i, (s.confs k).nRxQueue.toNat ≠ 0 := by
    have hwithin := h.within i
    have htotal := h.total
    rw [← Finset.add_sum_erase Finset.univ _ (Finset.mem_univ i)] at htotal
    omega
  obtain ⟨j, hj, hjn⟩ := Finset.exists_ne_zero_of_sum_ne_zero hothers
  exact ⟨i, j, (Finset.ne_of_mem_erase hj).symm, hi, hjn⟩

end

section

variable {devCount : UInt8} {lcores : Fin rteMaxLcore → Bool} {mask quota : UInt32} {dev : Devices}
  {confs : LcoreConfs n} {calls : List DevCall}

/-- After a successful set-up from zeroed configurations every lcore transmits on queue 0. -/
theorem initPorts_ok
    (h : initPorts devCount lcores mask quota dev (fun _ => .zero n) = .ok (confs, calls)) :
    (∃ s, Assigned lcores quota (enabledPorts mask (clampPorts devCount)) s ∧ s.confs = confs) ∧
    ∀ port, EnabledPort mask (clampPorts devCount) port →
      (∀ i, (confs i).txQueue port = .ok 0) ∧ .txQueueSetup port 0 ∈ calls := by
  unfold initPorts at h
  split at h
  next => cases h
  next =>
    obtain ⟨s, hs, h⟩ := StepRun.bind_eq_ok.mp h
    obtain ⟨calls', hcalls, h⟩ := StepRun.bind_eq_ok.mp h
    cases h
    refine ⟨⟨s, ?_, rfl⟩, fun port hport => ⟨fun i => ?_, ?_⟩⟩
    · rcases assignPorts_cases lcores mask quota devCount (fun _ => .zero n)
        fun _ => rfl with
        ⟨s', hs', hassigned⟩ | ⟨hs', _⟩
      · obtain rfl := Except.ok.inj (hs'.symm.trans hs)
        exact hassigned
      · rw [hs] at hs'
        cases hs'
    · have hp : port.toNat < maxPorts := hport.1.trans_le (clampPorts_le devCount)
      rw [LcoreQueueConf.txQueue, portIndex_ok hp, StepRun.ok_bind, assignPorts_txQueueId hs i]
      rfl
    · exact (initPorts_txQueueSetup hcalls).2 port
        ((mem_portIds (clampPorts_le devCount)).mpr hport.1) hport.2

theorem not_dedicated_of_lt
    (h : initPorts devCount lcores mask quota dev (fun _ => .zero n) = .ok (confs, calls))
    (hlen : quota.toNat < (enabledPorts mask (clampPorts devCount)).length) :
    ¬DedicatedTxQueues mask (clampPorts devCount) confs calls := by
  intro hdedicated
  obtain ⟨⟨s, hassigned, rfl⟩, hqueue⟩ := initPorts_ok h
  obtain ⟨i, j, hij, hi, hj⟩ := hassigned.two_lcores hlen
  obtain ⟨port, hmem⟩ := List.exists_mem_of_length_pos (Nat.zero_lt_of_lt hlen)
  have hport := (mem_enabledPorts (clampPorts_le devCount)).mp hmem
  obtain ⟨q, r, hq, hr, hne, _⟩ := hdedicated i j hij
    (fun he => hi (by rw [he]; rfl)) (fun he => hj (by rw [he]; rfl)) port hport
  obtain rfl := Except.ok.inj (((hqueue port hport).1 i).symm.trans hq)
  obtain rfl := Except.ok.inj (((hqueue port hport).1 j).symm.trans hr)
  exact hne rfl

end

/-- Devices that never fail leave the set-up to the lcores. -/
theorem exists_initPorts (n : Nat) {devCount : UInt8} (lcores : Fin rteMaxLcore → Bool)
    (mask quota : UInt32) (hdev : devCount ≠ 0)
    (hroom : (enabledPorts mask (clampPorts devCount)).length ≤ quota.toNat * lcoreCount lcores) :
    ∃ confs calls, initPorts devCount lcores mask quota (fun _ _ => 0) (fun _ => .zero n) =
      .ok (confs, calls) := by
  have hinit : ∀ (ids : List UInt8) calls,
      ∃ calls', StepRun.run (initPort mask fun _ _ => 0) calls ids = .ok calls' := by
    intro ids
    induction ids with
    | nil => exact fun calls => ⟨calls, rfl⟩
    | cons p ids ih =>
      intro calls
      by_cases hmask : mask &&& ((1 : UInt32) <<< p.toUInt32) = 0
      · rw [StepRun.run_cons, initPort, if_pos hmask]
        exact ih calls
      · rw [StepRun.run_cons, initPort, if_neg hmask]
        exact ih _
  rcases assignPorts_cases lcores mask quota devCount (fun _ => .zero n) fun _ => rfl with
    ⟨s, hs, _⟩ | ⟨_, hmany⟩
  · obtain ⟨calls, hcalls⟩ := hinit (portIds (clampPorts devCount)) []
    exact ⟨s.confs, calls, by rw [initPorts, if_neg hdev, hs, StepRun.ok_bind, hcalls]; rfl⟩
  · omega

/-- Lcores have TX queues of their own exactly when one lcore has room for all the enabled ports,
so that no second lcore polls any. -/
theorem dedicatedTxQueues_iff {devCount : UInt8} {lcores : Fin rteMaxLcore → Bool}
    {mask quota : UInt32} {dev : Devices} {confs : LcoreConfs n} {calls : List DevCall}
    (h : initPorts devCount lcores mask quota dev (fun _ => .zero n) = .ok (confs, calls)) :
    DedicatedTxQueues mask (clampPorts devCount) confs calls ↔
      (enabledPorts mask (clampPorts devCount)).length ≤ quota.toNat := by
  constructor
  · intro hdedicated
    by_contra hlen
    exact not_dedicated_of_lt h (Nat.lt_of_not_le hlen) hdedicated
  · intro hlen i j hij hi hj
    obtain ⟨⟨s, hassigned, rfl⟩, _⟩ := initPorts_ok h
    refine absurd (hassigned.one_lcore hlen (fun he => hi ?_) fun he => hj ?_) hij
    · exact UInt16.toNat_inj.mp he
    · exact UInt16.toNat_inj.mp he

theorem dedicatedTxQueues_one_lcore : ∃ confs calls,
    initPorts 2 (fun _ => true) 3 2 (fun _ _ => 0) (fun _ => .zero 0) = .ok (confs, calls) ∧
      DedicatedTxQueues 3 (clampPorts 2) confs calls := by
  obtain ⟨confs, calls, h⟩ := exists_initPorts 0 (fun _ => true) 3 2
    (by decide : (2 : UInt8) ≠ 0) (by decide)
  exact ⟨confs, calls, h, (dedicatedTxQueues_iff h).mpr (by decide)⟩

/-- Two ports on two lcores: both transmit on queue 0 of either port. -/
theorem not_dedicatedTxQueues : ∃ confs calls,
    initPorts 2 (fun _ => true) 3 1 (fun _ _ => 0) (fun _ => .zero 0) = .ok (confs, calls) ∧
      ¬DedicatedTxQueues 3 (clampPorts 2) confs calls := by
  obtain ⟨confs, calls, h⟩ := exists_initPorts 0 (fun _ => true) 3 1
    (by decide : (2 : UInt8) ≠ 0) (by decide)
  exact ⟨confs, calls, h, not_dedicated_of_lt h (by decide)⟩

end LearningSwitch
