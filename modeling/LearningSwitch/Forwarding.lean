import LearningSwitch.OutputPath
import LearningSwitch.Pipeline

namespace LearningSwitch

variable {n : Nat}

/-- What the table knows a host by: its address, and the two bytes behind it that the union adds and
nothing initialises. -/
abbrev Host := EtherAddr × UInt16

def broadcastHost : Host := (broadcastAddr, 0)

/-- A frame that an lcore learns from, under the padding that it meets. -/
structure Learning (n : Nat) where
  arrival : Arrival n
  pad : UInt16

def Learning.src (l : Learning n) : Host := (l.arrival.src, l.pad)

def L2Switch.learn (l2 : L2Switch) (l : Learning n) : L2Switch :=
  componentLearn l2 l.arrival.world l.arrival.m l.pad

/-- A frame that the driver hands to an lcore; `others` are the frames that other lcores put
through the pipeline since this lcore put one through. -/
structure RxFrame (n : Nat) where
  others : List (Learning n)
  arrival : Arrival n
  stray : Stray

def RxFrame.dst (f : RxFrame n) : Host := (f.arrival.dst, f.stray.dstPad)

/-- What the table learns up to and with the frame. -/
def RxFrame.learnings (f : RxFrame n) : List (Learning n) :=
  f.others ++ [⟨f.arrival, f.stray.srcPad⟩]

structure RxFrame.Accepted (f : RxFrame n) : Prop where
  arrival : f.arrival.Accepted
  others : ∀ l ∈ f.others, l.arrival.inPort.toNat < maxPorts

/-- What the switch owes a frame. -/
inductive Forwarding
  | forbidden
  | flood
  | unicast (port : UInt8)
  | unknown
deriving DecidableEq

/-- The port on which each host was first heard. -/
def hostsHeard (ls : List (Learning n)) : Host → Option UInt8 :=
  FirstWriter.first ((ls.filter fun l => l.src ≠ broadcastHost).map fun l =>
    (l.src, l.arrival.inPort))

/-- The purpose of the switch: `before` is what was learned, on any lcore, before the frame came
to this one. -/
def forwarding (pairs : List AddressPair) (before : List (Learning n)) (f : RxFrame n) :
    Forwarding :=
  if ∃ pair ∈ pairs, Carries f.arrival.world f.arrival.m pair then .forbidden
  else if f.dst = broadcastHost then .flood
  else
    match hostsHeard (before ++ f.learnings) f.dst with
    | none => .unknown
    | some port => .unicast port

/-- The frame `a` got its due in the events `es`, which lead to the memory `w`. -/
def Forwarding.Done (a : Arrival n) (w : World n) (es : List (Event n)) : Forwarding → Prop
  | .forbidden => sends es = [] ∧ freed es = [some a.m]
  | .flood => FloodedOver a.m w es
  | .unicast port => sends es = [(port, a.m, a.world.view a.m)]
  | .unknown => False

theorem hostsHeard_snoc (ls : List (Learning n)) (l : Learning n) :
    hostsHeard (ls ++ [l]) = if l.src = broadcastHost then hostsHeard ls
      else FirstWriter.insertNew (hostsHeard ls) (l.src, l.arrival.inPort) := by
  unfold hostsHeard
  split
  next hb => simp [List.filter_append, hb]
  next hb =>
    rw [← FirstWriter.first_snoc]
    simp [List.filter_append, hb]

theorem hostsHeard_port {ls : List (Learning n)} {k : Host} {port : UInt8}
    (h : hostsHeard ls k = some port) : ∃ l ∈ ls, l.arrival.inPort = port := by
  obtain ⟨l, hl, heq⟩ := List.mem_map.mp (FirstWriter.mem_of_first h)
  exact ⟨l, (List.mem_filter.mp hl).1, (Prod.mk.inj heq).2⟩

/-- The map holds the hosts of `t`. -/
def L2Switch.Stores (l2 : L2Switch) (t : Host → Option UInt8) : Prop :=
  ∀ k : Host, l2.l2AddrMap (asInt k.1 k.2) = (t k).map fun port => port.toUInt32.toUInt64

theorem asInt_broadcastHost {k : Host} : asInt k.1 k.2 = l2Broadcast ↔ k = broadcastHost := by
  rw [asInt_eq_l2Broadcast, broadcastHost, Prod.ext_iff]

theorem L2Switch.Stores.learn {l2 : L2Switch} {ls : List (Learning n)}
    (h : l2.Stores (hostsHeard ls)) (l : Learning n) :
    (l2.learn l).Stores (hostsHeard (ls ++ [l])) := by
  rw [hostsHeard_snoc]
  by_cases hb : l.src = broadcastHost
  · have hkey : asInt (l.arrival.world.sAddr l.arrival.m) l.pad = l2Broadcast :=
      (asInt_broadcastHost (k := l.src)).mpr hb
    rw [if_pos hb, L2Switch.learn, componentLearn_broadcast l2 hkey]
    exact h
  · have hkey : asInt (l.arrival.world.sAddr l.arrival.m) l.pad ≠ l2Broadcast :=
      fun he => hb ((asInt_broadcastHost (k := l.src)).mp he)
    intro k
    rw [if_neg hb, L2Switch.learn, componentLearn_insertNew l2 hkey]
    by_cases hk : k = l.src
    · have hat : asInt k.1 k.2 = asInt (l.arrival.world.sAddr l.arrival.m) l.pad := by
        rw [hk]
        rfl
      have hold := h k
      rw [hat] at hold ⊢
      rw [FirstWriter.insertNew_self, hold, hk, FirstWriter.insertNew_self]
      cases hostsHeard ls l.src <;> rfl
    · have hne : asInt k.1 k.2 ≠ asInt (l.arrival.world.sAddr l.arrival.m) l.pad := by
        intro he
        obtain ⟨haddr, hpad⟩ := asInt_inj.mp he
        exact hk (Prod.ext haddr hpad)
      rw [FirstWriter.insertNew_ne _ _ hne, FirstWriter.insertNew_ne _ _ hk]
      exact h k

theorem L2Switch.Stores.find {l2 : L2Switch} {t : Host → Option UInt8} (h : l2.Stores t)
    (w : World n) (m : Fin n) (pad : UInt16) :
    l2.find w m pad =
      if (w.dAddr m, pad) = broadcastHost then .ok floodPort
      else
        match t (w.dAddr m, pad) with
        | none => .error .endDeref
        | some port => .ok port.toUInt32 := by
  by_cases hb : (w.dAddr m, pad) = broadcastHost
  · rw [if_pos hb, find_broadcast l2 ((asInt_broadcastHost (k := (w.dAddr m, pad))).mpr hb)]
  · have hkey : asInt (w.dAddr m) pad ≠ l2Broadcast :=
      fun he => hb ((asInt_broadcastHost (k := (w.dAddr m, pad))).mp he)
    have hmap : l2.l2AddrMap (asInt (w.dAddr m) pad) = _ := h (w.dAddr m, pad)
    rw [find_of_ne l2 hkey, if_neg hb, hmap]
    cases t (w.dAddr m, pad) <;> simp

/-- The switch has learned from the frames `ls`. -/
structure Switch.Learned (ethane : Ethane) (ls : List (Learning n)) (sw : Switch n) : Prop where
  ethane : sw.ethane = ethane
  room : sw.qconf.Room
  stores : sw.l2.Stores (hostsHeard ls)
  ports : ∀ l ∈ ls, l.arrival.inPort.toNat < maxPorts

theorem Switch.learned_boot (ethane : Ethane) {q : LcoreQueueConf n} (hroom : q.Room) :
    ({ l2 := .empty, ethane, qconf := q } : Switch n).Learned ethane [] where
  ethane := rfl
  room := hroom
  stores := fun _ => rfl
  ports := fun _ h => absurd h List.not_mem_nil

section Frame

variable {ethane : Ethane} {pairs : List AddressPair} {sw sw' : Switch n} {w w' : World n}
  {m : Fin n} {ls : List (Learning n)} {f : RxFrame n}

theorem Switch.Learned.learn (h : sw.Learned ethane ls) {l : Learning n}
    (hl : l.arrival.inPort.toNat < maxPorts) {q : LcoreQueueConf n} (hroom : q.Room) :
    Switch.Learned ethane (ls ++ [l]) { sw with l2 := sw.l2.learn l, qconf := q } := by
  refine ⟨h.ethane, hroom, h.stores.learn l, fun k hk => ?_⟩
  rcases List.mem_append.mp hk with hk | hk
  · exact h.ports k hk
  · rw [List.mem_singleton.mp hk]
    exact hl

/-- The other lcores learn meanwhile. -/
theorem Switch.Learned.hear {others : List (Learning n)} (h : sw.Learned ethane ls)
    (hports : ∀ l ∈ others, l.arrival.inPort.toNat < maxPorts) :
    Switch.Learned ethane (ls ++ others) { sw with l2 := others.foldl L2Switch.learn sw.l2 } := by
  induction others generalizing sw ls with
  | nil => simpa using h
  | cons l others ih =>
    have hlearn := h.learn (hports l List.mem_cons_self) h.room
    have hrest := ih hlearn fun k hk => hports k (List.mem_cons_of_mem l hk)
    rw [List.append_assoc] at hrest
    exact hrest

/-- Classification hands nothing over and stops nothing. -/
theorem classify_ok {e : Ethane} {locals : ExactLocals srcMatch [dstMatch]} {r : Pipeline × World n}
    (h : e.classify locals w m = .ok r) : ∃ class_, r = (.continue_, pushHeader w m class_) := by
  obtain ⟨found, _, h⟩ := StepRun.bind_eq_ok.mp h
  cases found with
  | none => exact ⟨classAllow, (Except.ok.inj h).symm⟩
  | some slot =>
    dsimp only at h
    split at h
    next => cases h
    next cb _ =>
      cases cb
      exact ⟨classForbid, (Except.ok.inj h).symm⟩

theorem enforce_moved {q : LcoreQueueConf n} (hroom : q.Room) (w : World n) (m : Fin n) :
    ∃ es, Lcore.Moved ⟨w, q⟩ ⟨(enforce w m).2, q⟩ es := by
  unfold enforce
  dsimp only
  split
  next =>
    refine ⟨[], @Lcore.Moved.world n ⟨w, q⟩ hroom _ _ ?_⟩
    rw [adj_log, List.append_nil]
  next =>
    split
    next =>
      obtain ⟨es, hmoved, _⟩ := @free_moved n ⟨w, q⟩ hroom (some m)
      exact ⟨es, hmoved⟩
    next =>
      have hprint : Lcore.Moved ⟨w, q⟩ ⟨w.emit (.print "Unknown classification.\n"), q⟩ _ :=
        @Lcore.Moved.world n ⟨w, q⟩ hroom _ _ rfl
      obtain ⟨es, hmoved, _⟩ := free_moved hprint.room (some m)
      exact ⟨_, hprint.trans hmoved⟩

theorem classifyEnforce_moved {e : Ethane} {locals : ExactLocals srcMatch [dstMatch]}
    {q : LcoreQueueConf n} (hroom : q.Room) {r : Pipeline × World n}
    (h : e.classifyEnforce locals w m = .ok r) : ∃ es, Lcore.Moved ⟨w, q⟩ ⟨r.2, q⟩ es := by
  obtain ⟨c, hclass, h⟩ := StepRun.bind_eq_ok.mp h
  obtain ⟨class_, rfl⟩ := classify_ok hclass
  have hpushed : Lcore.Moved ⟨w, q⟩ ⟨pushHeader w m class_, q⟩ [] :=
    @Lcore.Moved.world n ⟨w, q⟩ hroom _ _ (by rw [pushHeader_log, List.append_nil])
  obtain ⟨es, hmoved⟩ := enforce_moved hroom (pushHeader w m class_) m
  exact ⟨_, Except.ok.inj h ▸ hpushed.trans hmoved⟩

/-- A pass through the pipeline that comes to an end moves what it hands over, whatever it meets. -/
theorem startPipeline_moved {stray : Stray} (h : startPipeline sw w m stray = .ok (sw', w'))
    (hroom : sw.qconf.Room) :
    ∃ es, Lcore.Moved ⟨w, sw.qconf⟩ ⟨w', sw'.qconf⟩ es := by
  obtain ⟨⟨verdict, u⟩, hclass, hrest⟩ := StepRun.bind_eq_ok.mp h
  obtain ⟨es, hmoved⟩ := classifyEnforce_moved hroom hclass
  cases verdict with
  | stop =>
    cases hrest
    exact ⟨es, hmoved⟩
  | continue_ =>
    obtain ⟨v, hroute, hrest⟩ := StepRun.bind_eq_ok.mp hrest
    obtain ⟨s, hout, hrest⟩ := StepRun.bind_eq_ok.mp hrest
    cases hrest
    obtain ⟨port, _, hroute⟩ := StepRun.bind_eq_ok.mp hroute
    cases hroute
    have hpushed : Lcore.Moved ⟨u, sw.qconf⟩ ⟨pushHeader u m port, sw.qconf⟩ [] :=
      @Lcore.Moved.world n ⟨u, sw.qconf⟩ hroom _ _ (by rw [pushHeader_log, List.append_nil])
    obtain ⟨fs, hsent⟩ := componentOutput_moved hroom hout
    exact ⟨_, (hmoved.trans hpushed).trans hsent⟩

/-- What is left of the pipeline for a frame that Ethane admits. -/
theorem startPipeline_admitted {stray : Stray} {u : World n}
    (h : sw.ethane.classifyEnforce stray.locals w m = .ok (.continue_, u)) :
    startPipeline sw w m stray =
      (componentLearn sw.l2 w m stray.srcPad).find u m stray.dstPad >>= fun port =>
        componentOutput ⟨pushHeader u m port, sw.qconf⟩ m >>= fun s => .ok
          ({ sw with l2 := componentLearn sw.l2 w m stray.srcPad, qconf := s.qconf }, s.world) := by
  rw [startPipeline]
  simp only [h, StepRun.ok_bind, componentRoute]
  cases (componentLearn sw.l2 w m stray.srcPad).find u m stray.dstPad with
  | error e => rfl
  | ok port => rfl

/-- The output header of a flood is stripped, and the frame flooded. -/
theorem componentOutput_flooded {u : World n} {q : LcoreQueueConf n} (hroom : q.Room)
    (hstrip : w.SameButHeadroom m (rtePktmbufAdj (pushHeader u m floodPort) m 4).2) :
    ∃ s' es, componentOutput ⟨pushHeader u m floodPort, q⟩ m = .ok s' ∧ s'.qconf.Room ∧
      s'.world.log = w.log ++ es ∧ FloodedOver m s'.world es := by
  obtain ⟨s', es, hs, hmoved, hflooded⟩ :=
    @pktFlood_moved n ⟨(rtePktmbufAdj (pushHeader u m floodPort) m 4).2, q⟩ m hroom
  have hread : (⟨pushHeader u m floodPort, q⟩ : Lcore n).world.read32 m = floodPort :=
    pushHeader_read32 u m floodPort
  refine ⟨s', es, (componentOutput_flood hread).trans hs, hmoved.room, ?_, hflooded⟩
  rw [hmoved.log, hstrip.log]

/-- The output header of a port is stripped, and the frame handed over as it came. -/
theorem componentOutput_sent {u : World n} {q : LcoreQueueConf n} (hroom : q.Room) {port : UInt8}
    (hport : port.toNat < maxPorts)
    (hstrip : w.SameButHeadroom m (rtePktmbufAdj (pushHeader u m port.toUInt32) m 4).2) :
    ∃ s' es, componentOutput ⟨pushHeader u m port.toUInt32, q⟩ m = .ok s' ∧ s'.qconf.Room ∧
      s'.world.log = w.log ++ es ∧ sends es = [(port, m, w.view m)] := by
  obtain ⟨s', es, hs, hmoved, _, hsends⟩ :=
    @pktSendSingle_moved n ⟨(rtePktmbufAdj (pushHeader u m port.toUInt32) m 4).2, q⟩ port m hroom
      hport
  have hwide : port.toUInt32.toNat < maxPorts := by rwa [UInt8.toNat_toUInt32]
  have hnarrow : port.toUInt32.toUInt8 = port := UInt8.toUInt8_toUInt32 port
  refine ⟨s', es, ?_, hmoved.room, ?_, ?_⟩
  · rw [componentOutput_port hwide, hnarrow, hs]
  · rw [hmoved.log, hstrip.log]
  · rw [hstrip.view] at hsends
    exact hsends

/-- A frame gets its due, and the table grows by what the frame shows; or its destination is
unknown, and the lookup reads past the end of the map. -/
theorem startPipeline_forwards (hforbids : ethane.Forbids pairs)
    (hlen : pairs.length ≤ maxTableSize) (h : sw.Learned ethane (ls ++ f.others))
    (hacc : f.arrival.Accepted) :
    (forwarding pairs ls f = .unknown ∧
        startPipeline sw f.arrival.world f.arrival.m f.stray = .error .endDeref) ∨
      ∃ sw' w' es, startPipeline sw f.arrival.world f.arrival.m f.stray = .ok (sw', w') ∧
        sw'.Learned ethane (ls ++ f.learnings) ∧ w'.log = f.arrival.world.log ++ es ∧
        (forwarding pairs ls f).Done f.arrival w' es := by
  have hlearn : ∀ {q : LcoreQueueConf n}, q.Room → Switch.Learned ethane (ls ++ f.learnings)
      { sw with
        l2 := componentLearn sw.l2 f.arrival.world f.arrival.m f.stray.srcPad, qconf := q } := by
    intro q hroom
    have hl := h.learn (l := ⟨f.arrival, f.stray.srcPad⟩) hacc.inPort hroom
    rw [List.append_assoc] at hl
    exact hl
  rcases hforbids.classifyEnforce hlen f.stray.locals hacc.wellFormed hacc.headroom
    with ⟨hcarry, hclass⟩ | ⟨hallow, u, hclass, hsame⟩
  · -- stopped and freed
    right
    obtain ⟨es, hes, hlog, hfreed⟩ :=
      free_log (pushHeader f.arrival.world f.arrival.m classForbid) (some f.arrival.m)
    rw [pushHeader_log] at hlog
    refine ⟨_, _, .free (some f.arrival.m) :: es, ?_, hlearn h.room, hlog, ?_⟩
    · rw [startPipeline]
      simp only [h.ethane, hclass, StepRun.ok_bind]
    · rw [forwarding, if_pos hcarry]
      refine ⟨?_, hfreed⟩
      show sends es = []
      exact sends_ofMemory hes
  · -- the output header is pushed and stripped again
    have hhead : 4 ≤ (u.mbuf f.arrival.m).pkt.data := by
      rw [hsame.pkt]
      exact hacc.headroom
    have hstrip : ∀ port, f.arrival.world.SameButHeadroom f.arrival.m
        (rtePktmbufAdj (pushHeader u f.arrival.m port) f.arrival.m 4).2 :=
      fun port => hsame.trans (adj_pushHeader (hsame.wellFormed hacc.wellFormed) hhead port)
    have hfind : (componentLearn sw.l2 f.arrival.world f.arrival.m f.stray.srcPad).find u
        f.arrival.m f.stray.dstPad =
          if f.dst = broadcastHost then .ok floodPort
          else
            match hostsHeard (ls ++ f.learnings) f.dst with
            | none => .error .endDeref
            | some port => .ok port.toUInt32 :=
      (hsame.find _ _).trans ((hlearn h.room).stores.find _ _ _)
    rw [startPipeline_admitted (h.ethane ▸ hclass), hfind]
    by_cases hb : f.dst = broadcastHost
    · right
      obtain ⟨s', es, hs, hroom, hlog, hflooded⟩ :=
        componentOutput_flooded h.room (hstrip floodPort)
      refine ⟨_, s'.world, es, ?_, hlearn hroom, hlog, ?_⟩
      · rw [if_pos hb, StepRun.ok_bind, hs, StepRun.ok_bind]
      · rw [forwarding, if_neg hallow, if_pos hb]
        exact hflooded
    · cases hheard : hostsHeard (ls ++ f.learnings) f.dst with
      | none =>
        left
        refine ⟨?_, ?_⟩
        · rw [forwarding, if_neg hallow, if_neg hb, hheard]
        · rw [if_neg hb, StepRun.error_bind]
      | some port =>
        right
        obtain ⟨l, hl, rfl⟩ := hostsHeard_port hheard
        obtain ⟨s', es, hs, hroom, hlog, hsends⟩ := componentOutput_sent h.room
          ((hlearn h.room).ports l hl) (hstrip l.arrival.inPort.toUInt32)
        refine ⟨_, s'.world, es, ?_, hlearn hroom, hlog, ?_⟩
        · rw [if_neg hb, StepRun.ok_bind, hs, StepRun.ok_bind]
        · rw [forwarding, if_neg hallow, if_neg hb, hheard]
          exact hsends

end Frame

end LearningSwitch
