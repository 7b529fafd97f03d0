import LearningSwitch.MainLoop

namespace LearningSwitch

open InputTrace

variable {n : Nat}

/-- What the driver hands over for entry `i` of `rx_queue_list`. -/
def LoopTurn.burst (q : LcoreQueueConf n) (t : LoopTurn n) (i : Nat) : List (Polled n) :=
  ((t.rx i).take maxPktBurst).map fun f => ⟨q.rxQueues.getD i 0, f⟩

def LoopTurn.frames (q : LcoreQueueConf n) (t : LoopTurn n) : List (Polled n) :=
  (List.range q.nRxQueue.toNat).flatMap (t.burst q)

/-- The loop can poll every port in the list. -/
structure LcoreQueueConf.Polls (q : LcoreQueueConf n) : Prop where
  bound : q.nRxQueue.toNat ≤ maxRxQueuePerLcore
  ports : ∀ portid ∈ q.rxQueues, portid.toNat < maxPorts

theorem LcoreQueueConf.Polls.length {q : LcoreQueueConf n} (h : q.Polls) :
    q.rxQueues.length = q.nRxQueue.toNat := by
  rw [LcoreQueueConf.rxQueues, List.length_take, List.length_ofFn, Nat.min_eq_left h.bound]

theorem LcoreQueueConf.rxQueues_setUp {q q' : LcoreQueueConf n} (h : q'.setUp = q.setUp) :
    q'.nRxQueue = q.nRxQueue ∧ q'.rxQueueList = q.rxQueueList ∧ q'.rxQueues = q.rxQueues := by
  have hn : q'.nRxQueue = q.nRxQueue := congrArg (fun x => x.1) h
  have hl : q'.rxQueueList = q.rxQueueList := congrArg (fun x => x.2.1) h
  exact ⟨hn, hl, by rw [LcoreQueueConf.rxQueues, hn, hl, LcoreQueueConf.rxQueues]⟩

/-- The entry that the loop reads is the one that `init_ports` wrote. -/
theorem rxQueueId_getD {q q' : LcoreQueueConf n} (h : q'.setUp = q.setUp) {i : Nat} {portid : UInt8}
    (hi : i < q.nRxQueue.toNat) (hid : rxQueueId q' i = .ok portid) :
    q.rxQueues.getD i 0 = portid := by
  obtain ⟨_, hl, _⟩ := LcoreQueueConf.rxQueues_setUp h
  unfold rxQueueId at hid
  split at hid
  next hbound =>
    have hget : q.rxQueues[i]? = some (q.rxQueueList ⟨i, hbound⟩) := by
      rw [LcoreQueueConf.rxQueues, List.getElem?_take_of_lt hi, List.getElem?_ofFn, dif_pos hbound]
    rw [List.getD_eq_getElem?_getD, hget, Option.getD_some, ← hl]
    exact Except.ok.inj hid
  next => cases hid

theorem rxQueueId_ok {q q' : LcoreQueueConf n} (hq : q.Polls) (h : q'.setUp = q.setUp) {i : Nat}
    (hi : i < q.nRxQueue.toNat) :
    ∃ portid, rxQueueId q' i = .ok portid ∧ portid.toNat < maxPorts := by
  have hbound : i < maxRxQueuePerLcore := Nat.lt_of_lt_of_le hi hq.bound
  have hid : rxQueueId q' i = .ok (q'.rxQueueList ⟨i, hbound⟩) := dif_pos hbound
  refine ⟨_, hid, hq.ports _ ?_⟩
  have hlt : i < q.rxQueues.length := by rw [hq.length]; exact hi
  rw [← rxQueueId_getD h hi hid, List.getD_eq_getElem?_getD, List.getElem?_eq_getElem hlt,
    Option.getD_some]
  exact List.getElem_mem hlt

/-- A drain leaves nothing in the queues. -/
theorem drain_ok {s : Lcore n} (hroom : s.qconf.Room) :
    ∃ s', drain s = .ok s' ∧ s'.qconf.Room ∧ s'.qconf.setUp = s.qconf.setUp ∧
      ∀ p, (s'.qconf.txMbufs p).len = 0 := by
  have drained : ∀ (ports : List UInt8) (u : Lcore n), u.qconf.Room →
      (∀ port ∈ ports, port.toNat < maxPorts) → ∃ u', StepRun.run drainPort u ports = .ok u' ∧
        u'.qconf.Room ∧ ∀ p, (∃ port ∈ ports, port.toNat = p.val) ∨ (u.qconf.txMbufs p).len = 0 →
          (u'.qconf.txMbufs p).len = 0 := by
    intro ports
    induction ports with
    | nil =>
      intro u hu _
      refine ⟨u, rfl, hu, fun p hp => ?_⟩
      simpa using hp
    | cons port ports ih =>
      intro u hu hports
      have hp := hports port List.mem_cons_self
      obtain ⟨v, hv, hvroom, hzero, hothers, _⟩ := drainPort_cases hu hp
      obtain ⟨u', hu', hroom', hend⟩ :=
        ih v hvroom fun r hr => hports r (List.mem_cons_of_mem port hr)
      refine ⟨u', StepRun.run_cons_ok.mpr ⟨v, hv, hu'⟩, hroom', fun p hcase => hend p ?_⟩
      by_cases hport : p = ⟨port.toNat, hp⟩
      · right
        rw [hport]
        exact hzero
      · rcases hcase with ⟨r, hr, hrp⟩ | hlen
        · rcases List.mem_cons.mp hr with rfl | hr
          · exact absurd (Fin.ext hrp.symm) hport
          · exact Or.inl ⟨r, hr, hrp⟩
        · right
          rw [hothers p hport]
          exact hlen
  obtain ⟨s', hs, hroom', hzero⟩ := drained _ s hroom fun port hport => drainList_toNat hport
  exact ⟨s', hs, hroom', drain_setUp hs, fun p => hzero p (Or.inl (mem_drainList p))⟩

/-- The mbuf `x` was handed over for the queue `p` while the frame was handled. -/
def Handled.Queued (h : Handled n) (p : Fin maxPorts) (x : Option (Fin n)) : Prop :=
  ∃ port m v, port.toNat = p.val ∧ x = some m ∧ (port, m, v) ∈ sends h.events

/-- The loop has taken the frames `past`, in this order. -/
structure MainLoop.Ran (q : LcoreQueueConf n) (past : List (Polled n)) (s : MainLoop n) : Prop where
  room : s.sw.qconf.Room
  setUp : s.sw.qconf.setUp = q.setUp
  handled : s.handled.map Handled.polled = past
  window : ∀ h ∈ s.handled, h.tsc - h.prevTsc ≤ burstTxDrain
  waiting : ∀ p x, x ∈ (s.sw.qconf.txMbufs p).entries →
    ∃ h ∈ s.handled, h.prevTsc = s.prevTsc ∧ h.Queued p x

/-- The frames that were received on one port. -/
def rxCount (past : List (Polled n)) (p : Fin maxPorts) : Nat :=
  past.countP fun f => f.portid.toNat = p.val

/-- The counters of received frames are right, and nothing else is ever counted. -/
def MainLoop.Counts (past : List (Polled n)) (s : MainLoop n) : Prop :=
  ∀ p, s.portStatistics p = { tx := 0, rx := UInt64.ofNat (rxCount past p), dropped := 0 }

section Steps

variable {q : LcoreQueueConf n} {past : List (Polled n)} {s s' : MainLoop n}

/-- One frame that came to the end of the pipeline. -/
theorem MainLoop.Ran.rxFrame (h : s.Ran q past) {tsc : UInt64}
    (hwindow : tsc - s.prevTsc ≤ burstTxDrain) {portid : UInt8} {f : RxFrame n}
    (hrun : rxFrame tsc portid s f = .ok s') :
    s'.Ran q (past ++ [⟨portid, f⟩]) ∧ s'.prevTsc = s.prevTsc ∧
      s'.portStatistics = s.portStatistics := by
  obtain ⟨⟨sw, after⟩, hcall, hrest⟩ := StepRun.bind_eq_ok.mp hrun
  cases hrest
  obtain ⟨es, hmoved⟩ := startPipeline_moved (call_eq_ok.mp hcall) h.room
  refine ⟨⟨hmoved.room, hmoved.setUp.trans h.setUp, ?_, fun x hx => ?_, fun p x hx => ?_⟩, rfl, rfl⟩
  · rw [List.map_append, h.handled]
    rfl
  · rcases List.mem_append.mp hx with hx | hx
    · exact h.window x hx
    · rw [List.mem_singleton.mp hx]
      exact hwindow
  · rcases hmoved.waiting p x hx with hx | hsent
    · obtain ⟨b, hb, hbprev, hqueued⟩ := h.waiting p x hx
      exact ⟨b, List.mem_append_left _ hb, hbprev, hqueued⟩
    · refine ⟨_, List.mem_append_right _ (List.mem_singleton.mpr rfl), rfl, ?_⟩
      have hevents : after.log.drop f.arrival.world.log.length = es := by
        rw [show after.log = f.arrival.world.log ++ es from hmoved.log, List.drop_left]
      rw [Handled.Queued, Handled.events]
      show ∃ port m v, _ ∧ _ ∧ (port, m, v) ∈ sends (after.log.drop f.arrival.world.log.length)
      rw [hevents]
      exact hsent

theorem rxFrame_feeds {tsc prev : UInt64} (hwindow : tsc - prev ≤ burstTxDrain) (portid : UInt8)
    (stats : Fin maxPorts → PortStatistics) :
    Feeds (rxFrame tsc portid)
      (fun past (s : MainLoop n) => s.Ran q past ∧ s.prevTsc = prev ∧ s.portStatistics = stats)
      (fun f => [⟨portid, f⟩]) fun _ => True := by
  rintro s past f s' ⟨h, rfl, rfl⟩ _ hrun
  exact h.rxFrame hwindow hrun

theorem rxCount_append (past fs : List (Polled n)) (p : Fin maxPorts) :
    rxCount (past ++ fs) p = rxCount past p + rxCount fs p :=
  List.countP_append

/-- All frames of a burst count for the port that was polled. -/
theorem rxCount_burst (portid : UInt8) (fs : List (RxFrame n)) (p : Fin maxPorts) :
    rxCount (fs.flatMap fun f => [(⟨portid, f⟩ : Polled n)]) p =
      if portid.toNat = p.val then fs.length else 0 := by
  rw [← List.map_eq_flatMap, rxCount, List.countP_map]
  by_cases hport : portid.toNat = p.val
  · rw [if_pos hport]
    simp [Function.comp_def, hport]
  · rw [if_neg hport]
    simp [Function.comp_def, hport]

theorem MainLoop.Counts.countRx (h : s.Counts past) {portid : UInt8}
    (hport : portid.toNat < maxPorts) (fs : List (RxFrame n)) :
    ∃ stats, s.countRx portid fs.length = .ok { s with portStatistics := stats } ∧
      ∀ t : MainLoop n, t.portStatistics = stats →
        t.Counts (past ++ fs.flatMap fun f => [⟨portid, f⟩]) := by
  refine ⟨_, dif_pos hport, fun t ht p => ?_⟩
  rw [ht, rxCount_append, rxCount_burst]
  by_cases hp : p = ⟨portid.toNat, hport⟩
  · subst hp
    rw [Function.update_self, h, if_pos rfl, UInt64.ofNat_add]
  · have hne : portid.toNat ≠ p.val := fun he => hp (Fin.ext he.symm)
    rw [Function.update_of_ne hp, h, if_neg hne, Nat.add_zero]

theorem countRx_port {portid : UInt8} {k : Nat} (h : s.countRx portid k = .ok s') :
    portid.toNat < maxPorts := by
  unfold MainLoop.countRx at h
  split at h
  next hport => exact hport
  next => cases h

theorem LoopTurn.burst_eq {q' : LcoreQueueConf n} (h : q'.setUp = q.setUp) (t : LoopTurn n)
    {i : Nat} {portid : UInt8} (hi : i < q.nRxQueue.toNat) (hid : rxQueueId q' i = .ok portid) :
    t.burst q i = ((t.rx i).take maxPktBurst).flatMap fun f => [⟨portid, f⟩] := by
  rw [LoopTurn.burst, rxQueueId_getD h hi hid, List.map_eq_flatMap]

/-- One burst: counted, then handled frame by frame. -/
theorem rxQueue_feeds (t : LoopTurn n) {prev : UInt64} (hwindow : t.tsc - prev ≤ burstTxDrain) :
    Feeds (rxQueue t)
      (fun past (s : MainLoop n) => (s.Ran q past ∧ s.prevTsc = prev) ∧ s.Counts past)
      (t.burst q) fun i => i < q.nRxQueue.toNat := by
  rintro s past i s' ⟨⟨h, hprev⟩, hcounts⟩ hi hrun
  obtain ⟨portid, hid, hrun⟩ := StepRun.bind_eq_ok.mp hrun
  obtain ⟨u, hcount, hrun⟩ := StepRun.bind_eq_ok.mp hrun
  obtain ⟨stats, hcount', hcounts'⟩ :=
    hcounts.countRx (countRx_port hcount) ((t.rx i).take maxPktBurst)
  obtain rfl := Except.ok.inj (hcount'.symm.trans hcount)
  have hframes := (rxFrame_feeds hwindow portid stats).run { s with portStatistics := stats } past
    ((t.rx i).take maxPktBurst) s' ⟨⟨h.room, h.setUp, h.handled, h.window, h.waiting⟩, hprev, rfl⟩
    (fun _ _ => trivial) hrun
  rw [LoopTurn.burst_eq h.setUp t hi hid]
  exact ⟨⟨hframes.1, hframes.2.1⟩, hcounts' s' hframes.2.2⟩

/-- The drain of one turn, which fails never and changes nothing but the queues and the clocks. -/
theorem MainLoop.Ran.txDrain (h : s.Ran q past) (conf : LoopConf) (t : LoopTurn n) :
    ∃ qconf timerTsc prevTsc,
      LearningSwitch.txDrain conf s t =
        .ok { s with sw := { s.sw with qconf }, timerTsc, prevTsc } ∧
      MainLoop.Ran q past { s with sw := { s.sw with qconf }, timerTsc, prevTsc } ∧
      t.tsc - prevTsc ≤ burstTxDrain := by
  by_cases hdue : burstTxDrain < t.tsc - s.prevTsc
  · obtain ⟨l, hl, hroom, hset, hzero⟩ := @drain_ok n ⟨t.memory, s.sw.qconf⟩ h.room
    refine ⟨l.qconf, advanceTimer conf s.timerTsc (t.tsc - s.prevTsc), t.tsc, ?_, ?_, ?_⟩
    · rw [LearningSwitch.txDrain, if_pos hdue, hl]
      rfl
    · refine ⟨hroom, hset.trans h.setUp, h.handled, h.window, fun p x hx => ?_⟩
      have hempty : (l.qconf.txMbufs p).entries = [] := entries_of_len_zero (hzero p)
      rw [show ((({ s.sw with qconf := l.qconf } : Switch n).qconf.txMbufs p).entries) = [] from
        hempty] at hx
      cases hx
    · rw [UInt64.sub_self]
      decide
  · exact ⟨s.sw.qconf, s.timerTsc, s.prevTsc, if_neg hdue, h, UInt64.not_lt.mp hdue⟩

theorem LoopTurn.frames_idle (hidle : q.nRxQueue = 0) (t : LoopTurn n) : t.frames q = [] := by
  rw [LoopTurn.frames, hidle]
  rfl

/-- A turn that comes to an end has taken all its frames, and ends no more than `BURST_TX_DRAIN`
after the last drain. -/
theorem MainLoop.Ran.turn (h : s.Ran q past) (hcounts : s.Counts past) {conf : LoopConf}
    {t : LoopTurn n} (hrun : mainLoopTurn conf s t = .ok s') :
    s'.Ran q (past ++ t.frames q) ∧ s'.Counts (past ++ t.frames q) ∧
      (q.nRxQueue ≠ 0 → t.tsc - s'.prevTsc ≤ burstTxDrain) := by
  have hn := (LcoreQueueConf.rxQueues_setUp h.setUp).1
  unfold mainLoopTurn at hrun
  split at hrun
  next hzero =>
    have hidle : q.nRxQueue = 0 := hn.symm.trans hzero
    cases hrun
    rw [LoopTurn.frames_idle hidle, List.append_nil]
    exact ⟨h, hcounts, fun hne => absurd hidle hne⟩
  next =>
    obtain ⟨qconf, timerTsc, prevTsc, hdrain, hran, hwindow⟩ := h.txDrain conf t
    have hn' : qconf.nRxQueue = q.nRxQueue := (LcoreQueueConf.rxQueues_setUp hran.setUp).1
    rw [hdrain, StepRun.ok_bind] at hrun
    simp only [hn'] at hrun
    obtain ⟨⟨hend, hprev⟩, hcounts'⟩ := (rxQueue_feeds t hwindow).run _ past
      (List.range q.nRxQueue.toNat) s' ⟨⟨hran, rfl⟩, hcounts⟩
      (fun i hi => List.mem_range.mp hi) hrun
    refine ⟨hend, hcounts', fun _ => ?_⟩
    rw [hprev]
    exact hwindow

theorem mainLoop_feeds (q : LcoreQueueConf n) (conf : LoopConf) :
    Feeds (StepRun.run (mainLoopTurn conf))
      (fun past (s : MainLoop n) => s.Ran q past ∧ s.Counts past)
      (fun turns => turns.flatMap (LoopTurn.frames q)) fun turns => ∀ t ∈ turns, True := by
  refine Feeds.run fun s past t s' h _ hrun => ?_
  obtain ⟨hran, hcounts, _⟩ := h.1.turn h.2 hrun
  exact ⟨hran, hcounts⟩

theorem MainLoop.Ran.start {ethane : Ethane} (hempty : ∀ p, (q.txMbufs p).len = 0) :
    (MainLoop.start ethane q).Ran q [] ∧ (MainLoop.start ethane q).Counts [] := by
  refine ⟨⟨fun p => len_lt_of_zero (hempty p), rfl, rfl, fun _ h => absurd h List.not_mem_nil,
    fun p x hx => ?_⟩, fun p => rfl⟩
  rw [show ((MainLoop.start ethane q).sw.qconf.txMbufs p).entries = [] from
    entries_of_len_zero (hempty p)] at hx
  cases hx

end Steps

/-- Every lcore can poll the ports that `init_ports` gave it, and starts with empty queues. -/
theorem polls_of_assignPorts {lcores : Fin rteMaxLcore → Bool} {mask quota : UInt32}
    {devCount : UInt8} {s₀ : Assignment n}
    (hinit : assignPorts lcores mask quota (fun _ => .zero n) (clampPorts devCount) = .ok s₀)
    (lcoreId : Fin rteMaxLcore) :
    (s₀.confs lcoreId).Polls ∧ ∀ p, ((s₀.confs lcoreId).txMbufs p).len = 0 := by
  have hassigned : Assigned lcores quota (enabledPorts mask (clampPorts devCount)) s₀ := by
    rcases assignPorts_cases lcores mask quota devCount (fun _ => .zero n) fun _ => rfl with
      ⟨s, hs, h⟩ | ⟨herr, _⟩
    · exact Except.ok.inj (hs.symm.trans hinit) ▸ h
    · rw [herr] at hinit
      cases hinit
  have hports : (enabledPorts mask (clampPorts devCount)).length ≤ clampPorts devCount := by
    refine (List.length_filter_le _ _).trans ?_
    simp [portIds]
  have hclamp := clampPorts_le devCount
  have hmax : maxRxQueuePerLcore = maxPorts := rfl
  have hle := hassigned.nRxQueue_le lcoreId
  refine ⟨⟨by omega, fun portid hmem => ?_⟩, ?_⟩
  · have hone := List.one_le_count_iff.mpr hmem
    have hsum := Finset.single_le_sum (f := fun i => (s₀.confs i).rxQueues.count portid)
      (fun _ _ => Nat.zero_le _) (Finset.mem_univ lcoreId)
    rw [hassigned.count] at hsum
    have hin := (mem_enabledPorts hclamp).mp (List.one_le_count_iff.mp (hone.trans hsum))
    exact hin.1.trans_le hclamp
  · have keeps : ∀ (s : Assignment n) (portid : UInt8) (t : Assignment n),
        (∀ i, (s.confs i).txMbufs = (LcoreQueueConf.zero n).txMbufs) → True →
        assignPort lcores mask quota s portid = .ok t →
        ∀ i, (t.confs i).txMbufs = (LcoreQueueConf.zero n).txMbufs := by
      intro s portid t hs _ hstep i
      rw [assignPort] at hstep
      split at hstep
      next => exact Except.ok.inj hstep ▸ hs i
      next =>
        obtain ⟨id, _, hstep⟩ := StepRun.bind_eq_ok.mp hstep
        obtain ⟨j, _, hstep⟩ := StepRun.bind_eq_ok.mp hstep
        obtain ⟨slot, _, hstep⟩ := StepRun.bind_eq_ok.mp hstep
        cases Except.ok.inj hstep
        by_cases hij : i = j
        · subst hij
          simpa using hs i
        · simpa [hij] using hs i
    have hend := StepRun.run_invariant keeps (fun _ => rfl)
      (StepRun.along_of_forall (fun _ _ => trivial) _) hinit
    intro p
    rw [hend lcoreId]
    rfl

/-- Four ports of which port 3 alone is enabled, polled by lcore 0. -/
def portThreeAlone : Assignment 10 where
  confs := Function.update (fun _ => .zero 10) lcoreZero { LcoreQueueConf.zero 10 with
    nRxQueue := 1
    rxQueueList := Function.update (fun _ => 0) ⟨0, by decide⟩ 3 }
  rxLcoreId := 0

theorem assignPorts_three :
    assignPorts (fun _ => true) 8 1 (fun _ => .zero 10) (clampPorts 4) = .ok portThreeAlone := by
  have hlcore : rxLcore (fun _ => true) 1 (fun _ => .zero 10) 0 = .ok 0 := by
    unfold rxLcore
    rfl
  have hport : assignPort (fun _ => true) 8 1 ⟨fun _ => .zero 10, 0⟩ 3 = .ok portThreeAlone := by
    show (rxLcore (fun _ => true) 1 (fun _ => .zero 10) 0 >>= _) = _
    rw [hlcore]
    rfl
  show (assignPort (fun _ => true) 8 1 ⟨fun _ => .zero 10, 0⟩ 3 >>= fun s => Except.ok s) = _
  rw [hport]
  rfl

/-- Two headers; the other eight mbufs are for frames. -/
def tenMbufs : World 10 :=
  initEal (fun m => if m = 2 ∨ m = 3 then .header else .packet)
    (fun i => some (Fin.ofNat 10 (i + 2))) fun _ => 0

def frameIn (m : Fin 10) (src dst : EtherAddr) (inPort : UInt8) : Arrival 10 where
  world := rxChain tenMbufs inPort
    [(m, List.ofFn dst ++ List.ofFn src ++ 0x08 :: List.replicate 21 0)]
  m := m

def padded (srcPad dstPad : UInt16) : Stray := ⟨srcPad, dstPad, fun _ => 0, fun _ => 0⟩

def turnAt (tsc : UInt64) (fs : List (RxFrame 10)) : LoopTurn 10 where
  tsc := tsc
  memory := tenMbufs
  rx := fun _ => fs

/-- The master, with the `timer_period` that no option changed. -/
def defaultConf : LoopConf where
  timerPeriod := 10 * 20000000 * 1000
  master := true

/-- Station 1 is heard, and behind its address two stray bytes. -/
def firstTurn : LoopTurn 10 :=
  turnAt 30000 [⟨[], frameIn 0 (station 1) broadcastAddr 3, padded 7 0⟩]

/-- Station 2 writes to it and, once another lcore has heard that one, to station 5. -/
def secondTurn : LoopTurn 10 :=
  turnAt 40000
    [⟨[], frameIn 0 (station 2) (station 1) 3, padded 0 7⟩,
     ⟨[⟨frameIn 4 (station 5) broadcastAddr 4, 0⟩], frameIn 1 (station 2) (station 5) 3, padded 0 0⟩]

def twoTurns : List (LoopTurn 10) := [firstTurn, secondTurn]

/-- Station 2 writes to station 1, and the two bytes behind the address are not those behind it when
it was heard. -/
def strayTurn : LoopTurn 10 :=
  turnAt 40000 [⟨[], frameIn 0 (station 2) (station 1) 3, padded 0 0⟩]

theorem twoTurns_run : ∃ s, StepRun.run (mainLoopTurn defaultConf)
    (.start (componentEthaneInit .empty) (portThreeAlone.confs lcoreZero)) twoTurns = .ok s := by
  have hok : (StepRun.run (mainLoopTurn defaultConf)
      (.start (componentEthaneInit .empty) (portThreeAlone.confs lcoreZero)) twoTurns).isOk = true := by
    decide +kernel
  cases hrun : StepRun.run (mainLoopTurn defaultConf)
      (.start (componentEthaneInit .empty) (portThreeAlone.confs lcoreZero)) twoTurns with
  | error e =>
    rw [hrun] at hok
    cases hok
  | ok s => exact ⟨s, rfl⟩

section Runs

variable {lcores : Fin rteMaxLcore → Bool} {mask quota : UInt32} {devCount : UInt8}
  {s₀ : Assignment n} {ethane : Ethane} {turns : List (LoopTurn n)} {s : MainLoop n}

/-- What waits in a queue when a turn ends was handed over since the last drain, by a frame of a
turn that began no more than `BURST_TX_DRAIN` after it, and so did the turn that ends. -/
theorem main_loop_window
    (hinit : assignPorts lcores mask quota (fun _ => .zero n) (clampPorts devCount) = .ok s₀)
    {lcoreId : Fin rteMaxLcore} (hpoll : (s₀.confs lcoreId).nRxQueue ≠ 0) {conf : LoopConf}
    {last : LoopTurn n}
    (hrun : StepRun.run (mainLoopTurn conf) (.start ethane (s₀.confs lcoreId)) (turns ++ [last]) =
      .ok s) :
    last.tsc - s.prevTsc ≤ burstTxDrain ∧
      ∀ p x, x ∈ (s.sw.qconf.txMbufs p).entries →
        ∃ h ∈ s.handled, h.prevTsc = s.prevTsc ∧ h.tsc - s.prevTsc ≤ burstTxDrain ∧
          ∃ port m v, port.toNat = p.val ∧ x = some m ∧ (port, m, v) ∈ sends h.events := by
  obtain ⟨_, hempty⟩ := polls_of_assignPorts hinit lcoreId
  rw [StepRun.run_append] at hrun
  obtain ⟨u, hu, hlast⟩ := StepRun.bind_eq_ok.mp hrun
  obtain ⟨s', hstep, hs'⟩ := StepRun.run_cons_ok.mp hlast
  cases hs'
  obtain ⟨hran, hcounts⟩ := mainLoop_feeds (s₀.confs lcoreId) conf
    (.start ethane (s₀.confs lcoreId)) [] turns u (MainLoop.Ran.start hempty) (fun _ _ => trivial) hu
  obtain ⟨hend, _, hwindow⟩ := hran.turn hcounts hstep
  refine ⟨hwindow hpoll, fun p x hx => ?_⟩
  obtain ⟨h, hh, hprev, hqueued⟩ := hend.waiting p x hx
  refine ⟨h, hh, hprev, ?_, hqueued⟩
  rw [← hprev]
  exact hend.window h hh

theorem main_loop_window_twoTurns : ∃ s, StepRun.run (mainLoopTurn defaultConf)
      (.start (componentEthaneInit .empty) (portThreeAlone.confs lcoreZero)) twoTurns = .ok s ∧
    secondTurn.tsc - s.prevTsc ≤ burstTxDrain ∧
      ∀ p x, x ∈ (s.sw.qconf.txMbufs p).entries →
        ∃ h ∈ s.handled, h.prevTsc = s.prevTsc ∧ h.tsc - s.prevTsc ≤ burstTxDrain ∧
          ∃ port m v, port.toNat = p.val ∧ x = some m ∧ (port, m, v) ∈ sends h.events := by
  obtain ⟨s, hrun⟩ := twoTurns_run
  refine ⟨s, hrun, ?_⟩
  rw [show twoTurns = [firstTurn] ++ [secondTurn] from rfl] at hrun
  exact main_loop_window assignPorts_three (by decide) hrun

/-- Every frame that the drivers hand over in a run is handled, once and in the order of the polls.
The receive counters count the frames of each port, modulo `2^64`; the other two stay zero
whatever is sent and freed. -/
theorem main_loop_counts
    (hinit : assignPorts lcores mask quota (fun _ => .zero n) (clampPorts devCount) = .ok s₀)
    {lcoreId : Fin rteMaxLcore} {conf : LoopConf}
    (hrun : StepRun.run (mainLoopTurn conf) (.start ethane (s₀.confs lcoreId)) turns = .ok s) :
    s.handled.map Handled.polled = turns.flatMap (LoopTurn.frames (s₀.confs lcoreId)) ∧
      ∀ p, s.portStatistics p = {
        tx := 0
        rx := UInt64.ofNat (s.handled.countP fun h => h.polled.portid.toNat = p.val)
        dropped := 0 } := by
  obtain ⟨_, hempty⟩ := polls_of_assignPorts hinit lcoreId
  obtain ⟨hran, hcounts⟩ := mainLoop_feeds (s₀.confs lcoreId) conf
    (.start ethane (s₀.confs lcoreId)) [] turns s (MainLoop.Ran.start hempty)
    (fun _ _ => trivial) hrun
  refine ⟨hran.handled, fun p => ?_⟩
  rw [hcounts p, ← hran.handled, rxCount, List.countP_map]
  rfl

theorem main_loop_counts_twoTurns : ∃ s, StepRun.run (mainLoopTurn defaultConf)
      (.start (componentEthaneInit .empty) (portThreeAlone.confs lcoreZero)) twoTurns = .ok s ∧
    s.handled.map Handled.polled =
        twoTurns.flatMap (LoopTurn.frames (portThreeAlone.confs lcoreZero)) ∧
      ∀ p, s.portStatistics p = {
        tx := 0
        rx := UInt64.ofNat (s.handled.countP fun h => h.polled.portid.toNat = p.val)
        dropped := 0 } := by
  obtain ⟨s, hrun⟩ := twoTurns_run
  exact ⟨s, hrun, main_loop_counts assignPorts_three hrun⟩

end Runs

end LearningSwitch
