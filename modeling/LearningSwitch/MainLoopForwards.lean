import LearningSwitch.MainLoopRuns

namespace LearningSwitch

open InputTrace

variable {n : Nat}

/-- What the table learned while the loop took the frames `past`. -/
def learned (past : List (Polled n)) : List (Learning n) :=
  past.flatMap fun f => f.frame.learnings

def Known (pairs : List AddressPair) (past : List (Polled n)) (f : Polled n) : Prop :=
  forwarding pairs (learned past) f.frame ≠ .unknown

/-- The frame got its due, given the frames handled before it. -/
def Handled.Due (pairs : List AddressPair) (before : List (Handled n)) (h : Handled n) : Prop :=
  (forwarding pairs (learned (before.map Handled.polled)) h.polled.frame).Done h.arrival h.after
    h.events

/-- The loop has taken the frames `past`, learned from them, and gave each its due. -/
structure MainLoop.Holds (ethane : Ethane) (pairs : List AddressPair) (q : LcoreQueueConf n)
    (past : List (Polled n)) (s : MainLoop n) : Prop where
  ran : s.Ran q past
  learned : s.sw.Learned ethane (learned past)
  due : GoodAfter (Handled.Due pairs) [] s.handled

section Steps

variable {ethane : Ethane} {pairs : List AddressPair} {q : LcoreQueueConf n}

theorem learned_append (past fs : List (Polled n)) :
    learned (past ++ fs) = learned past ++ learned fs :=
  List.flatMap_append

/-- One frame. -/
theorem rxFrame_takes (hforbids : ethane.Forbids pairs) (hlen : pairs.length ≤ maxTableSize)
    {tsc prev : UInt64} (hwindow : tsc - prev ≤ burstTxDrain) (portid : UInt8)
    (stats : Fin maxPorts → PortStatistics) :
    Takes (rxFrame tsc portid)
      (fun past (s : MainLoop n) => s.Holds ethane pairs q past ∧ s.prevTsc = prev ∧
        s.portStatistics = stats)
      (Known pairs) (.called .endDeref) (fun f => [⟨portid, f⟩]) RxFrame.Accepted := by
  rintro s past f ⟨h, rfl, rfl⟩ hacc
  have hgood : GoodAfter (Known pairs) past [(⟨portid, f⟩ : Polled n)] ↔
      forwarding pairs (learned past) f ≠ .unknown := by
    simp [GoodAfter, Known]
  rw [hgood]
  rcases startPipeline_forwards hforbids hlen (h.learned.hear hacc.others) hacc.arrival with
    ⟨hunknown, hrun⟩ | ⟨sw', w', es, hrun, hlearned, hlog, hdone⟩
  · right
    refine ⟨fun hne => hne hunknown, ?_⟩
    rw [rxFrame]
    dsimp only
    rw [hrun]
    rfl
  · left
    have hne : forwarding pairs (learned past) f ≠ .unknown := by
      intro hunknown
      rw [hunknown] at hdone
      exact hdone
    have hstep : rxFrame tsc portid s f = .ok { s with
        sw := sw'
        handled := s.handled ++ [⟨tsc, s.prevTsc, ⟨portid, f⟩, w'⟩] } := by
      rw [rxFrame]
      dsimp only
      rw [hrun]
      rfl
    obtain ⟨hran, hprev, hstats⟩ := h.ran.rxFrame hwindow hstep
    refine ⟨hne, _, hstep, ⟨hran, ?_, ?_⟩, hprev, hstats⟩
    · rw [learned_append]
      simpa [learned] using hlearned
    · rw [goodAfter_append]
      refine ⟨h.due, ?_, trivial⟩
      have hevents : w'.log.drop f.arrival.world.log.length = es := by
        rw [hlog, List.drop_left]
      rw [List.nil_append, Handled.Due, h.ran.handled, Handled.events]
      show (forwarding pairs (learned past) f).Done f.arrival w'
        (w'.log.drop f.arrival.world.log.length)
      rw [hevents]
      exact hdone

/-- The frames of one burst. -/
theorem rxQueue_takes (hforbids : ethane.Forbids pairs) (hlen : pairs.length ≤ maxTableSize)
    (hq : q.Polls) (t : LoopTurn n) {prev : UInt64} (hwindow : t.tsc - prev ≤ burstTxDrain)
    (ht : ∀ f ∈ t.frames q, f.frame.Accepted) :
    Takes (rxQueue t)
      (fun past (s : MainLoop n) => (s.Holds ethane pairs q past ∧ s.prevTsc = prev) ∧
        s.Counts past)
      (Known pairs) (.called .endDeref) (t.burst q) fun i => i < q.nRxQueue.toNat := by
  rintro s past i ⟨⟨h, hprev⟩, hcounts⟩ hi
  obtain ⟨portid, hid, hport⟩ := rxQueueId_ok hq h.ran.setUp hi
  have hburst := t.burst_eq h.ran.setUp hi hid
  have haccepted : ∀ f ∈ (t.rx i).take maxPktBurst, f.Accepted := by
    intro f hf
    refine ht ⟨portid, f⟩ (List.mem_flatMap.mpr ⟨i, List.mem_range.mpr hi, ?_⟩)
    rw [hburst]
    exact List.mem_flatMap.mpr ⟨f, hf, List.mem_singleton.mpr rfl⟩
  obtain ⟨stats, hcount, hcounts'⟩ := hcounts.countRx hport ((t.rx i).take maxPktBurst)
  have hstep : rxQueue t s i = StepRun.run (rxFrame t.tsc portid) { s with portStatistics := stats }
      ((t.rx i).take maxPktBurst) := by
    rw [rxQueue, hid, StepRun.ok_bind]
    simp only [hcount, StepRun.ok_bind]
  have hframes := (rxFrame_takes hforbids hlen hwindow portid stats).run
    { s with portStatistics := stats } past ((t.rx i).take maxPktBurst)
    ⟨⟨⟨h.ran.room, h.ran.setUp, h.ran.handled, h.ran.window, h.ran.waiting⟩, h.learned, h.due⟩,
      hprev, rfl⟩ haccepted
  simp only [← hburst] at hframes
  rw [hstep]
  rcases hframes with ⟨hgood, s', hrun, hholds, hprev', hstats⟩ | hbad
  · refine Or.inl ⟨hgood, s', hrun, ⟨hholds, hprev'⟩, ?_⟩
    rw [hburst]
    exact hcounts' s' hstats
  · exact Or.inr hbad

/-- One turn: either all its frames are taken, or it comes upon a frame for an unknown host. -/
theorem mainLoopTurn_takes (hforbids : ethane.Forbids pairs) (hlen : pairs.length ≤ maxTableSize)
    (hq : q.Polls) (conf : LoopConf) :
    Takes (mainLoopTurn conf)
      (fun past (s : MainLoop n) => s.Holds ethane pairs q past ∧ s.Counts past)
      (Known pairs) (.called .endDeref) (LoopTurn.frames q)
      fun t => ∀ f ∈ t.frames q, f.frame.Accepted := by
  rintro s past t ⟨h, hcounts⟩ ht
  have hn := (LcoreQueueConf.rxQueues_setUp h.ran.setUp).1
  by_cases hidle : q.nRxQueue = 0
  · left
    rw [LoopTurn.frames_idle hidle, List.append_nil]
    exact ⟨trivial, s, if_pos (hn.trans hidle), h, hcounts⟩
  · obtain ⟨qconf, timerTsc, prevTsc, hdrain, hran, hwindow⟩ := h.ran.txDrain conf t
    have hn' : qconf.nRxQueue = q.nRxQueue := (LcoreQueueConf.rxQueues_setUp hran.setUp).1
    have hstep : mainLoopTurn conf s t = StepRun.run (rxQueue t)
        { s with sw := { s.sw with qconf }, timerTsc, prevTsc } (List.range q.nRxQueue.toNat) := by
      rw [mainLoopTurn, if_neg (hn ▸ hidle), hdrain, StepRun.ok_bind]
      simp only [hn']
    have hlearned : Switch.Learned ethane (learned past) { s.sw with qconf } :=
      ⟨h.learned.ethane, hran.room, h.learned.stores, h.learned.ports⟩
    have hqueues := (rxQueue_takes hforbids hlen hq t hwindow ht).run
      { s with sw := { s.sw with qconf }, timerTsc, prevTsc } past (List.range q.nRxQueue.toNat)
      ⟨⟨⟨hran, hlearned, h.due⟩, rfl⟩, hcounts⟩ fun i hi => List.mem_range.mp hi
    rw [hstep]
    rcases hqueues with ⟨hgood, s', hrun, ⟨hholds, _⟩, hcounts'⟩ | hbad
    · exact Or.inl ⟨hgood, s', hrun, hholds, hcounts'⟩
    · exact Or.inr hbad

theorem MainLoop.Holds.start (hempty : ∀ p, (q.txMbufs p).len = 0) :
    (MainLoop.start ethane q).Holds ethane pairs q [] ∧ (MainLoop.start ethane q).Counts [] := by
  have hstart : (MainLoop.start ethane q).Ran q [] ∧ (MainLoop.start ethane q).Counts [] :=
    MainLoop.Ran.start hempty
  exact ⟨⟨hstart.1, Switch.learned_boot ethane hstart.1.room, trivial⟩, hstart.2⟩

end Steps

theorem frameIn_accepted {m : Fin 10} (hm : (tenMbufs.mbuf m).bufLen = 2176)
    (src dst : EtherAddr) {inPort : UInt8} (h : inPort.toNat < maxPorts) :
    (frameIn m src dst inPort).Accepted := by
  refine ⟨?_, ?_, ?_⟩
  · show ((frameIn m src dst inPort).world.mbuf m).pkt.data +
      ((frameIn m src dst inPort).world.mbuf m).pkt.dataLen.toNat ≤
        ((frameIn m src dst inPort).world.mbuf m).bufLen.toNat
    simp only [frameIn, rxChain, rxSeg, modify_mbuf_self, List.length_append, List.length_ofFn,
      List.length_cons, List.length_replicate]
    show bufOfs (tenMbufs.mbuf m).bufLen + 34 ≤ (tenMbufs.mbuf m).bufLen.toNat
    rw [hm]
    decide
  · show 4 ≤ ((frameIn m src dst inPort).world.mbuf m).pkt.data
    simp only [frameIn, rxChain, rxSeg, modify_mbuf_self]
    show 4 ≤ bufOfs (tenMbufs.mbuf m).bufLen
    rw [hm]
    decide
  · show ((frameIn m src dst inPort).world.mbuf m).pkt.inPort.toNat < maxPorts
    simp only [frameIn, rxChain, rxSeg, modify_mbuf_self]
    exact h

theorem turnAt_accepted {tsc : UInt64} {fs : List (RxFrame 10)} (h : ∀ f ∈ fs, f.Accepted)
    {q : LcoreQueueConf 10} : ∀ f ∈ (turnAt tsc fs).frames q, f.frame.Accepted := by
  intro f hf
  obtain ⟨i, _, hf⟩ := List.mem_flatMap.mp hf
  obtain ⟨g, hg, rfl⟩ := List.mem_map.mp hf
  exact h g (List.mem_of_mem_take hg)

theorem firstTurn_accepted {q : LcoreQueueConf 10} :
    ∀ f ∈ firstTurn.frames q, f.frame.Accepted := by
  refine turnAt_accepted fun f hf => ?_
  rw [List.mem_singleton.mp hf]
  exact ⟨frameIn_accepted rfl _ _ (by decide), by simp⟩

theorem twoTurns_accepted : ∀ t ∈ twoTurns, ∀ f ∈ t.frames (portThreeAlone.confs lcoreZero),
    f.frame.Accepted := by
  intro t ht
  rcases List.mem_pair.mp ht with rfl | rfl
  · exact firstTurn_accepted
  · refine turnAt_accepted fun f hf => ?_
    rcases List.mem_pair.mp hf with rfl | rfl
    · exact ⟨frameIn_accepted rfl _ _ (by decide), by simp⟩
    · refine ⟨frameIn_accepted rfl _ _ (by decide), fun l hl => ?_⟩
      rw [List.mem_singleton.mp hl]
      exact (frameIn_accepted rfl _ _ (by decide)).inPort

theorem initPair_forbids : (componentEthaneInit .empty).Forbids [initPair] :=
  Ethane.Forbids.init ⟨Classifier.installed_empty, by simp⟩

theorem twoTurns_known : GoodAfter (Known [initPair]) []
    (twoTurns.flatMap (LoopTurn.frames (portThreeAlone.confs lcoreZero))) := by
  have hframes : twoTurns.flatMap (LoopTurn.frames (portThreeAlone.confs lcoreZero)) =
      (firstTurn.rx 0).map (Polled.mk 3) ++ (secondTurn.rx 0).map (Polled.mk 3) := rfl
  rw [hframes]
  refine ⟨?_, ?_, ?_, trivial⟩
  · rw [Known]
    decide +kernel
  · rw [Known]
    decide +kernel
  · rw [Known]
    decide +kernel

section Runs

variable {lcores : Fin rteMaxLcore → Bool} {mask quota : UInt32} {devCount : UInt8}
  {s₀ : Assignment n} {ethane : Ethane} {pairs : List AddressPair} {turns : List (LoopTurn n)}

/-- As long as every destination is the broadcast address or was heard, the loop takes every frame
that the drivers hand over, once and in the order of its polls, and gives each its due. -/
theorem main_loop_forwards (hforbids : ethane.Forbids pairs) (hlen : pairs.length ≤ maxTableSize)
    (hinit : assignPorts lcores mask quota (fun _ => .zero n) (clampPorts devCount) = .ok s₀)
    (lcoreId : Fin rteMaxLcore) (conf : LoopConf)
    (hframes : ∀ t ∈ turns, ∀ f ∈ t.frames (s₀.confs lcoreId), f.frame.Accepted)
    (hknown : ∀ pre f post, turns.flatMap (LoopTurn.frames (s₀.confs lcoreId)) = pre ++ f :: post →
      forwarding pairs (learned pre) f.frame ≠ .unknown) :
    ∃ s, StepRun.run (mainLoopTurn conf) (.start ethane (s₀.confs lcoreId)) turns = .ok s ∧
      s.handled.map Handled.polled = turns.flatMap (LoopTurn.frames (s₀.confs lcoreId)) ∧
      ∀ pre h post, s.handled = pre ++ h :: post →
        (forwarding pairs (learned (pre.map Handled.polled)) h.polled.frame).Done h.arrival h.after
          h.events := by
  obtain ⟨hq, hempty⟩ := polls_of_assignPorts hinit lcoreId
  rcases (mainLoopTurn_takes hforbids hlen hq conf).run (.start ethane (s₀.confs lcoreId)) [] turns
    (MainLoop.Holds.start hempty) hframes with ⟨_, s, hrun, hholds, _⟩ | ⟨hbad, _⟩
  · refine ⟨s, hrun, hholds.ran.handled, fun pre h post hsplit => ?_⟩
    exact goodAfter_iff.mp hholds.due pre h post hsplit
  · refine absurd (goodAfter_iff.mpr fun pre f post hsplit => ?_) hbad
    exact hknown pre f post hsplit

theorem main_loop_forwards_twoTurns :
    ∃ s, StepRun.run (mainLoopTurn defaultConf)
        (.start (componentEthaneInit .empty) (portThreeAlone.confs lcoreZero)) twoTurns = .ok s ∧
      s.handled.map Handled.polled =
        twoTurns.flatMap (LoopTurn.frames (portThreeAlone.confs lcoreZero)) ∧
      ∀ pre h post, s.handled = pre ++ h :: post →
        (forwarding [initPair] (learned (pre.map Handled.polled)) h.polled.frame).Done h.arrival
          h.after h.events :=
  main_loop_forwards initPair_forbids (by decide) assignPorts_three lcoreZero defaultConf
    twoTurns_accepted (goodAfter_iff.mp twoTurns_known)

-- the broadcast frame goes to ports 0 and 1, the other two to where their stations were heard
example : (match StepRun.run (mainLoopTurn defaultConf)
    (.start (componentEthaneInit .empty) (portThreeAlone.confs lcoreZero)) twoTurns with
    | .ok s => s.handled.map fun h => (sends h.events).map Prod.fst
    | .error _ => []) = [[0, 1], [3], [4]] := by decide +kernel

/-- The loop ends in the read past the end of the map exactly when some admitted frame is for a
host that none of the frames up to it, on any lcore, came from. No other fault of the model ends
it. -/
theorem main_loop_fails_iff (hforbids : ethane.Forbids pairs) (hlen : pairs.length ≤ maxTableSize)
    (hinit : assignPorts lcores mask quota (fun _ => .zero n) (clampPorts devCount) = .ok s₀)
    (lcoreId : Fin rteMaxLcore) (conf : LoopConf)
    (hframes : ∀ t ∈ turns, ∀ f ∈ t.frames (s₀.confs lcoreId), f.frame.Accepted) :
    (StepRun.run (mainLoopTurn conf) (.start ethane (s₀.confs lcoreId)) turns =
        .error (.called .endDeref) ↔
      ∃ pre f post, turns.flatMap (LoopTurn.frames (s₀.confs lcoreId)) = pre ++ f :: post ∧
        forwarding pairs (learned pre) f.frame = .unknown) ∧
    ∀ e, StepRun.run (mainLoopTurn conf) (.start ethane (s₀.confs lcoreId)) turns = .error e →
      e = .called .endDeref := by
  obtain ⟨hq, hempty⟩ := polls_of_assignPorts hinit lcoreId
  rcases (mainLoopTurn_takes hforbids hlen hq conf).run (.start ethane (s₀.confs lcoreId)) [] turns
    (MainLoop.Holds.start hempty) hframes with ⟨hgood, s, hrun, _⟩ | ⟨hbad, hrun⟩
  · rw [hrun]
    refine ⟨⟨fun he => (by cases he), fun ⟨pre, f, post, hsplit, hunknown⟩ => ?_⟩,
      fun e he => (by cases he)⟩
    exact absurd hunknown (goodAfter_iff.mp hgood pre f post hsplit)
  · rw [hrun]
    refine ⟨⟨fun _ => ?_, fun _ => rfl⟩, fun e he => (Except.error.inj he).symm⟩
    by_contra hnone
    refine hbad (goodAfter_iff.mpr fun pre f post hsplit => ?_)
    intro hunknown
    exact hnone ⟨pre, f, post, hsplit, hunknown⟩

theorem main_loop_fails_iff_strayTurn : StepRun.run (mainLoopTurn defaultConf)
    (.start (componentEthaneInit .empty) (portThreeAlone.confs lcoreZero))
    [firstTurn, strayTurn] = .error (.called .endDeref) := by
  have hframes : ∀ t ∈ [firstTurn, strayTurn], ∀ f ∈ t.frames (portThreeAlone.confs lcoreZero),
      f.frame.Accepted := by
    intro t ht
    rcases List.mem_pair.mp ht with rfl | rfl
    · exact firstTurn_accepted
    · refine turnAt_accepted fun f hf => ?_
      rw [List.mem_singleton.mp hf]
      exact ⟨frameIn_accepted rfl _ _ (by decide), by simp⟩
  have hsplit : [firstTurn, strayTurn].flatMap (LoopTurn.frames (portThreeAlone.confs lcoreZero)) =
      (firstTurn.rx 0).map (Polled.mk 3) ++ (strayTurn.rx 0).map (Polled.mk 3) := rfl
  exact (main_loop_fails_iff initPair_forbids (by decide) assignPorts_three lcoreZero defaultConf
    hframes).1.mpr ⟨_, _, [], hsplit, by decide +kernel⟩

end Runs

end LearningSwitch
