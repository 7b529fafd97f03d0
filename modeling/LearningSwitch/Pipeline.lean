import LearningSwitch.EthanePolicy
import LearningSwitch.FloodPorts
import LearningSwitch.StationTable

namespace LearningSwitch

/-- What the uninitialised memory read by one call happens to hold: the padding of the two
address unions and the local key arrays of the classifier. -/
structure Stray where
  srcPad : UInt16
  dstPad : UInt16
  locals : ExactLocals srcMatch [dstMatch]

structure Switch (n : Nat) where
  l2 : L2Switch
  ethane : Ethane
  qconf : LcoreQueueConf n

variable {n : Nat}

def Switch.boot (ethane : Ethane) : Switch n where
  l2 := .empty
  ethane := ethane
  qconf := .zero n

def startPipeline (sw : Switch n) (w : World n) (m : Fin n) (stray : Stray) :
    Except Fault (Switch n × World n) := do
  let sw := { sw with l2 := componentLearn sw.l2 w m stray.srcPad }
  match ← sw.ethane.classifyEnforce stray.locals w m with
  | (.stop, w) => .ok (sw, w)
  | (.continue_, w) =>
    let w ← componentRoute sw.l2 w m stray.dstPad
    let s ← componentOutput ⟨w, sw.qconf⟩ m
    .ok ({ sw with qconf := s.qconf }, s.world)

/-- What an lcore does in its loop. The memory is found as the drivers and the other lcores left
it. -/
inductive PipelineStep (n : Nat)
  | frame (a : Arrival n) (stray : Stray)
  | drain (w : World n)

def pipelineStep (sw : Switch n) : PipelineStep n → Except Fault (Switch n)
  | .frame a stray => do
    let (sw, _) ← startPipeline sw a.world a.m stray
    .ok sw
  | .drain w => do
    let s ← LearningSwitch.drain ⟨w, sw.qconf⟩
    .ok { sw with qconf := s.qconf }

structure Arrival.Accepted (a : Arrival n) : Prop where
  wellFormed : a.world.WellFormed a.m
  headroom : 4 ≤ (a.world.mbuf a.m).pkt.data
  inPort : a.inPort.toNat < maxPorts

def PipelineStep.Accepted : PipelineStep n → Prop
  | .frame a stray => a.Accepted ∧ stray.srcPad = 0 ∧ stray.dstPad = 0
  | .drain _ => True

/-- Every port in the table is the port of some frame, so it indexes a queue, and the broadcast
address is no key. -/
structure L2Switch.Sound (l2 : L2Switch) : Prop where
  ports : ∀ key port, l2.l2AddrMap key = some port → port.toNat < maxPorts
  broadcast : l2.l2AddrMap l2Broadcast = none

theorem L2Switch.Sound.learn {l2 : L2Switch} (h : l2.Sound) {a : Arrival n}
    (ha : a.inPort.toNat < maxPorts) (pad : UInt16) :
    (componentLearn l2 a.world a.m pad).Sound := by
  by_cases hb : asInt (a.world.sAddr a.m) pad = l2Broadcast
  · rw [componentLearn_broadcast l2 hb]
    exact h
  · refine ⟨fun key port hkey => ?_, ?_⟩
    · rw [componentLearn_insertNew l2 hb] at hkey
      by_cases hk : key = asInt (a.world.sAddr a.m) pad
      · subst hk
        rw [FirstWriter.insertNew_self] at hkey
        rcases Option.or_eq_some_iff.mp hkey with hold | ⟨_, hnew⟩
        · exact h.ports _ _ hold
        · obtain rfl := Option.some.inj hnew
          simpa [Arrival.inPort] using ha
      · rw [FirstWriter.insertNew_ne _ _ hk] at hkey
        exact h.ports key port hkey
    · rw [componentLearn_insertNew l2 hb, FirstWriter.insertNew_ne _ _ (Ne.symm hb)]
      exact h.broadcast

theorem L2Switch.Sound.find_key {l2 : L2Switch} (h : l2.Sound) {a : Arrival n} {pad : UInt16}
    {port : UInt64} (hkey : l2.l2AddrMap (asInt a.dst pad) = some port) :
    l2.find a.world a.m pad = .ok port.toUInt32 := by
  have hne : asInt (a.world.dAddr a.m) pad ≠ l2Broadcast := by
    intro he
    rw [show asInt a.dst pad = l2Broadcast from he, h.broadcast] at hkey
    cases hkey
  have hmap : l2.l2AddrMap (asInt (a.world.dAddr a.m) pad) = some port := hkey
  rw [find_of_ne _ hne, hmap]

theorem World.SameButHeadroom.find {w w' : World n} {m : Fin n} (h : w.SameButHeadroom m w')
    (l2 : L2Switch) (pad : UInt16) : l2.find w' m pad = l2.find w m pad :=
  l2.find_congr (funext fun i => h.byte i) pad

theorem componentOutput_room {s s' : Lcore n} {m : Fin n} (hroom : s.qconf.Room)
    (h : componentOutput s m = .ok s') : s'.qconf.Room := by
  rw [componentOutput] at h
  dsimp only at h
  split at h
  next =>
    obtain ⟨t, _, ht, hroom', _⟩ :=
      @pktFlood_copies n { s with world := (rtePktmbufAdj s.world m 4).2 } m hroom
    rw [h] at ht
    exact Except.ok.inj ht ▸ hroom'
  next =>
    split at h
    next => exact Except.ok.inj h ▸ hroom
    next =>
      refine pktSendSingle_room ?_ (pktSendSingle_port h) h
      exact hroom

structure Switch.Inv (ethane : Ethane) (sw : Switch n) : Prop where
  sound : sw.l2.Sound
  ethane : sw.ethane = ethane
  room : sw.qconf.Room

theorem Switch.inv_boot (ethane : Ethane) : (Switch.boot ethane : Switch n).Inv ethane where
  sound := ⟨fun _ _ h => (by cases h), rfl⟩
  ethane := rfl
  room := fun _ => len_lt_of_zero rfl

theorem startPipeline_inv {ethane : Ethane} {sw sw' : Switch n} {a : Arrival n} {w' : World n}
    {stray : Stray} (h : sw.Inv ethane) (ha : a.inPort.toNat < maxPorts)
    (hrun : startPipeline sw a.world a.m stray = .ok (sw', w')) : sw'.Inv ethane := by
  have hsound := h.sound.learn ha stray.srcPad
  obtain ⟨⟨verdict, w⟩, hclass, hrest⟩ := StepRun.bind_eq_ok.mp hrun
  cases verdict with
  | stop =>
    cases hrest
    exact ⟨hsound, h.ethane, h.room⟩
  | continue_ =>
    obtain ⟨u, _, hrest⟩ := StepRun.bind_eq_ok.mp hrest
    obtain ⟨s, hout, hrest⟩ := StepRun.bind_eq_ok.mp hrest
    cases hrest
    exact ⟨hsound, h.ethane, componentOutput_room h.room hout⟩

theorem pipelineStep_inv {ethane : Ethane} {sw sw' : Switch n} {st : PipelineStep n}
    (h : sw.Inv ethane) (hst : st.Accepted) (hstep : pipelineStep sw st = .ok sw') :
    sw'.Inv ethane := by
  cases st with
  | frame a stray =>
    obtain ⟨⟨t, w⟩, hrun, hrest⟩ := StepRun.bind_eq_ok.mp hstep
    cases hrest
    exact startPipeline_inv h hst.1.inPort hrun
  | drain w =>
    obtain ⟨s, hrun, hrest⟩ := StepRun.bind_eq_ok.mp hstep
    cases hrest
    exact ⟨h.sound, h.ethane, drain_room h.room hrun⟩

theorem pipelineRun_inv {ethane : Ethane} {steps : List (PipelineStep n)} {sw : Switch n}
    (hsteps : ∀ st ∈ steps, st.Accepted)
    (hrun : StepRun.run pipelineStep (Switch.boot ethane) steps = .ok sw) : sw.Inv ethane :=
  StepRun.run_invariant (fun _ _ _ h hst hstep => pipelineStep_inv h hst hstep)
    (Switch.inv_boot ethane) (StepRun.along_of_forall hsteps _) hrun

theorem port_ne_sentinel {port : UInt32} (hport : port.toNat < maxPorts) :
    port ≠ floodPort ∧ port ≠ dropPacket := by
  constructor
  · rintro rfl
    exact absurd hport (by decide)
  · rintro rfl
    exact absurd hport (by decide)

/-- A header that names a port makes `component_output` send the frame as it was before. -/
theorem componentOutput_port {q : LcoreQueueConf n} {w : World n} {m : Fin n} {port : UInt32}
    (hport : port.toNat < maxPorts) :
    componentOutput ⟨pushHeader w m port, q⟩ m =
      pktSendSingle ⟨(rtePktmbufAdj (pushHeader w m port) m 4).2, q⟩ m port.toUInt8 := by
  obtain ⟨hflood, hdrop⟩ := port_ne_sentinel hport
  rw [componentOutput]
  simp only [pushHeader_read32, if_neg hflood, if_neg hdrop]

theorem portNarrow {port : UInt64} (h : port.toNat < maxPorts) :
    port.toUInt32.toNat = port.toNat ∧ port.toUInt32.toUInt8.toNat = port.toNat := by
  have hmax : maxPorts < 2 ^ 8 := by decide
  have h32 : port.toUInt32.toNat = port.toNat := by
    rw [UInt64.toNat_toUInt32, Nat.mod_eq_of_lt (by omega)]
  refine ⟨h32, ?_⟩
  rw [UInt32.toNat_toUInt8, h32, Nat.mod_eq_of_lt (by omega)]

/-- Whatever the loop did before, a frame that Ethane lets pass to a known station is handed over
once, unchanged, to the port stored for that station. -/
theorem startPipeline_knownUnicast {ethane : Ethane} {pairs : List AddressPair}
    (hforbids : ethane.Forbids pairs) (hlen : pairs.length < maxTableSize)
    {steps : List (PipelineStep n)} (hsteps : ∀ st ∈ steps, st.Accepted) {sw : Switch n}
    (hrun : StepRun.run pipelineStep (Switch.boot ethane) steps = .ok sw)
    {a : Arrival n} {stray : Stray} (ha : (PipelineStep.frame a stray).Accepted)
    (hallow : ¬ ∃ pair ∈ pairs, Carries a.world a.m pair) {port : UInt64}
    (hkey : (componentLearn sw.l2 a.world a.m 0).l2AddrMap (asInt a.dst 0) = some port) :
    ∃ sw' w' es, startPipeline sw a.world a.m stray = .ok (sw', w') ∧
      w'.log = a.world.log ++ es ∧
      sends es = [(port.toUInt32.toUInt8, a.m, a.world.view a.m)] ∧
      port.toNat < maxPorts ∧ port.toUInt32.toUInt8.toNat = port.toNat ∧
      port.toUInt32 ≠ floodPort ∧ port.toUInt32 ≠ dropPacket := by
  obtain ⟨hacc, hsrc, hdst⟩ := ha
  have hinv := pipelineRun_inv hsteps hrun
  have hsound := hinv.sound.learn hacc.inPort 0
  have hport := hsound.ports _ _ hkey
  obtain ⟨h32, h8⟩ := portNarrow hport
  have hout : port.toUInt32.toNat < maxPorts := by omega
  -- Ethane leaves the frame as it was received
  rcases hforbids.classifyEnforce (Nat.le_of_lt hlen) stray.locals hacc.wellFormed hacc.headroom
    with ⟨hcarry, _⟩ | ⟨_, u, hclass, hsame⟩
  · exact absurd hcarry hallow
  have hfind : (componentLearn sw.l2 a.world a.m 0).find u a.m 0 = .ok port.toUInt32 := by
    rw [hsame.find, hsound.find_key hkey]
  -- the output header is pushed and stripped again
  have hwell := hsame.wellFormed hacc.wellFormed
  have hhead : 4 ≤ (u.mbuf a.m).pkt.data := by
    rw [hsame.pkt]
    exact hacc.headroom
  have hstrip := hsame.trans (adj_pushHeader hwell hhead port.toUInt32)
  obtain ⟨s', es, hsend, _, _, hlog, hsends⟩ := @pktSendSingle_sends n
    ⟨(rtePktmbufAdj (pushHeader u a.m port.toUInt32) a.m 4).2, sw.qconf⟩ port.toUInt32.toUInt8 a.m
    hinv.room (by omega)
  rw [hstrip.log] at hlog
  rw [hstrip.view] at hsends
  have hresult : startPipeline sw a.world a.m stray = .ok
      ({ sw with l2 := componentLearn sw.l2 a.world a.m 0, qconf := s'.qconf }, s'.world) := by
    rw [startPipeline]
    simp only [hsrc, hdst, hinv.ethane, hclass, StepRun.ok_bind, componentRoute, hfind,
      componentOutput_port hout, hsend]
  exact ⟨_, s'.world, es, hresult, hlog, hsends, hport, h8, port_ne_sentinel hout⟩

def Stray.zero : Stray := ⟨0, 0, fun _ => 0, fun _ => 0⟩

theorem frameFrom_accepted (src dst : EtherAddr) {inPort : UInt8} (h : inPort.toNat < maxPorts) :
    (PipelineStep.frame (frameFrom src dst inPort) .zero).Accepted := by
  refine ⟨⟨?_, ?_, h⟩, rfl, rfl⟩
  · show 128 + 34 ≤ 2176
    decide
  · show 4 ≤ 128
    decide

theorem startPipeline_knownUnicast_station :
    ∃ sw sw' w' es, StepRun.run pipelineStep (Switch.boot (componentEthaneInit .empty))
        [.frame (frameFrom (station 1) broadcastAddr 3) .zero] = .ok sw ∧
      startPipeline sw (frameFrom (station 2) (station 1) 4).world 0 .zero = .ok (sw', w') ∧
      w'.log = (frameFrom (station 2) (station 1) 4).world.log ++ es ∧
      sends es = [(3, 0, (frameFrom (station 2) (station 1) 4).world.view 0)] := by
  have hrun : (match StepRun.run pipelineStep (Switch.boot (componentEthaneInit .empty))
        [.frame (frameFrom (station 1) broadcastAddr 3) .zero] with
      | .ok sw => (componentLearn sw.l2 (frameFrom (station 2) (station 1) 4).world 0 0).l2AddrMap
          (asInt (station 1) 0)
      | .error _ => none) = some 3 := by decide +kernel
  cases hsw : StepRun.run pipelineStep (Switch.boot (componentEthaneInit .empty))
      [.frame (frameFrom (station 1) broadcastAddr 3) .zero] with
  | error f => rw [hsw] at hrun; cases hrun
  | ok sw =>
    rw [hsw] at hrun
    have hforbids : (componentEthaneInit .empty).Forbids [initPair] :=
      Ethane.Forbids.init ⟨Classifier.installed_empty, by simp⟩
    have hsteps : ∀ st ∈ [PipelineStep.frame (frameFrom (station 1) broadcastAddr 3) .zero],
        st.Accepted := by
      simpa using frameFrom_accepted (station 1) broadcastAddr (by decide)
    have ha : (PipelineStep.frame (frameFrom (station 2) (station 1) 4) .zero).Accepted :=
      frameFrom_accepted (station 2) (station 1) (by decide)
    have hdst : (frameFrom (station 2) (station 1) 4).dst = station 1 := by decide
    rw [← hdst] at hrun
    obtain ⟨sw', w', es, hstart, hlog, hsends, _⟩ :=
      startPipeline_knownUnicast hforbids (by decide) hsteps hsw ha (by decide) hrun
    exact ⟨sw, sw', w', es, rfl, hstart, hlog, hsends⟩

end LearningSwitch
