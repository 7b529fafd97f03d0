import LearningSwitch.Io

namespace LearningSwitch

variable {n : Nat}

/-- The test that `init_ports` makes before it starts a port. -/
def EnabledPort (enabledPortMask : UInt32) (nbPorts : Nat) (portid : UInt8) : Prop :=
  portid.toNat < nbPorts ∧ enabledPortMask &&& ((1 : UInt32) <<< portid.toUInt32) ≠ 0

instance (enabledPortMask : UInt32) (nbPorts : Nat) (portid : UInt8) :
    Decidable (EnabledPort enabledPortMask nbPorts portid) :=
  inferInstanceAs (Decidable (_ ∧ _))

/-- The headers over `m` that were handed over for `port` in the stretch `es` of the log. -/
def copiesOn (w : World n) (m : Fin n) (port : UInt8) (es : List (Event n)) :
    List (UInt8 × Fin n × FrameView) :=
  (sends es).filter fun (p, c, _) => p = port ∧ w.next c = some m

def Event.isGetFailed : Event n → Bool
  | .getFailed _ => true
  | _ => false

/-- No allocation failed in the stretch `es` of the log. -/
def AllocsSucceed (es : List (Event n)) : Prop :=
  ∀ e ∈ es, e.isGetFailed = false

instance (es : List (Event n)) : Decidable (AllocsSucceed es) :=
  inferInstanceAs (Decidable (∀ e ∈ es, e.isGetFailed = false))

theorem AllocsSucceed.not_mem {es : List (Event n)} (h : AllocsSucceed es) (mp : Pool) :
    .getFailed mp ∉ es := by
  intro hmem
  cases h _ hmem

/-- One turn of the flood loop: without a failed allocation it sends one new header over `m`. -/
theorem floodOne_cases {s : Lcore n} (m : Fin n) {port : UInt8} (hroom : s.qconf.Room)
    (hp : port.toNat < maxPorts) :
    ∃ s' es, floodOne m s port = .ok s' ∧ s'.qconf.Room ∧ s'.world.log = s.world.log ++ es ∧
      (.getFailed .header ∈ es ∨ ∃ hdr view, s'.world.next hdr = some m ∧
        (∀ k, k ≠ hdr → s'.world.next k = s.world.next k) ∧ sends es = [(port, hdr, view)]) := by
  rcases pktDuplicate_cases s.world m with hdup | ⟨hdr, _, _, _, hdup⟩
  · obtain ⟨es, _, hlog, _⟩ := free_log (getFailedWorld s.world .header) (some m)
    refine ⟨{ s with world := rtePktmbufFree (getFailedWorld s.world .header) (some m) },
      .getFailed .header :: .free (some m) :: es, ?_, hroom, ?_, Or.inl List.mem_cons_self⟩
    · rw [floodOne, hdup]; rfl
    · rw [hlog]; simp [getFailedWorld, World.emit]
  · obtain ⟨s', es, hs, hroom', hnext, hlog, hsent⟩ :=
      @pktSendSingle_sends n { s with world := duplicated s.world hdr m } port hdr hroom hp
    refine ⟨s', .get hdr :: es, ?_, hroom', ?_, Or.inr ⟨hdr, _, ?_, fun k hk => ?_, hsent⟩⟩
    · rw [floodOne, hdup]; exact hs
    · rw [hlog]; simp
    · rw [hnext, duplicated_next_self]
    · rw [hnext, duplicated_next_ne _ _ _ hk]

theorem pktFlood_copies {s : Lcore n} (m : Fin n) (hroom : s.qconf.Room) :
    ∃ s' es, pktFlood s m = .ok s' ∧ s'.qconf.Room ∧ s'.world.log = s.world.log ++ es ∧
      (AllocsSucceed es → ∀ port,
        (copiesOn s'.world m port es).length = if port = 0 ∨ port = 1 then 1 else 0) := by
  obtain ⟨t, es, ht, hroom', hlog, hcase⟩ := @floodOne_cases n s m 0 hroom (by decide)
  obtain ⟨s', fs, hs, hroom'', hlog', hcase'⟩ := @floodOne_cases n t m 1 hroom' (by decide)
  refine ⟨s', es ++ fs, ?_, hroom'', by rw [hlog', hlog, List.append_assoc], fun hget port => ?_⟩
  · rw [pktFlood, StepRun.run_cons, ht, StepRun.ok_bind, StepRun.run_cons, hs]
    rfl
  · have hget := hget.not_mem .header
    rw [List.mem_append, not_or] at hget
    obtain ⟨h0, v0, hn0, _, hsent⟩ := hcase.resolve_left hget.1
    obtain ⟨h1, v1, hn1, hframe, hsent'⟩ := hcase'.resolve_left hget.2
    have hn0' : s'.world.next h0 = some m := by
      by_cases h : h0 = h1
      · rw [h, hn1]
      · rw [hframe h0 h, hn0]
    rw [copiesOn, sends_append, hsent, hsent']
    by_cases hp0 : 0 = port
    · subst hp0; simp [hn0']
    · by_cases hp1 : 1 = port
      · subst hp1; simp [hn1]
      · simp [hp0, hp1, Ne.symm hp0, Ne.symm hp1]

theorem componentOutput_flood {s : Lcore n} {m : Fin n} (hflood : s.world.read32 m = floodPort) :
    componentOutput s m = pktFlood { s with world := (rtePktmbufAdj s.world m 4).2 } m := by
  rw [componentOutput]
  simp only [hflood, if_true]

theorem adj_log (w : World n) (m : Fin n) (len : UInt16) :
    (rtePktmbufAdj w m len).2.log = w.log := by
  unfold rtePktmbufAdj
  split <;> rfl

/-- Ports 0 and 1 are the enabled ports beside `inPort` on one kind of set-up only. -/
theorem floodedPorts_iff {enabled : UInt8 → Prop} {inPort : UInt8} (hin : enabled inPort) :
    (∀ port, (port = 0 ∨ port = 1) ↔ enabled port ∧ port ≠ inPort) ↔
      2 ≤ inPort ∧ ∀ port, enabled port ↔ port = 0 ∨ port = 1 ∨ port = inPort := by
  constructor
  · intro h
    have h0 := ((h 0).mp (Or.inl rfl)).2
    have h1 := ((h 1).mp (Or.inr rfl)).2
    refine ⟨?_, fun port => ⟨fun hport => ?_, fun hport => ?_⟩⟩
    · have h0' : inPort.toNat ≠ 0 := fun he => h0 (UInt8.toNat_inj.mp he.symm)
      have h1' : inPort.toNat ≠ 1 := fun he => h1 (UInt8.toNat_inj.mp he.symm)
      rw [UInt8.le_iff_toNat_le]
      show 2 ≤ inPort.toNat
      omega
    · by_cases he : port = inPort
      · exact Or.inr (Or.inr he)
      · rcases (h port).mpr ⟨hport, he⟩ with h | h
        · exact Or.inl h
        · exact Or.inr (Or.inl h)
    · rcases hport with hport | hport | rfl
      · exact ((h port).mp (Or.inl hport)).1
      · exact ((h port).mp (Or.inr hport)).1
      · exact hin
  · intro hflood port
    obtain ⟨hlow, h⟩ := hflood
    constructor
    · intro hor
      rcases hor with rfl | rfl
      · exact ⟨(h 0).mpr (Or.inl rfl), fun he => absurd (he ▸ hlow) (by decide)⟩
      · exact ⟨(h 1).mpr (Or.inr (Or.inl rfl)), fun he => absurd (he ▸ hlow) (by decide)⟩
    · intro hand
      obtain ⟨hport, he⟩ := hand
      rcases (h port).mp hport with h | h | h
      · exact Or.inl h
      · exact Or.inr h
      · exact absurd h he

/-- A flooded frame reaches exactly the other enabled ports on one kind of set-up only: ports 0
and 1 and an ingress port beyond them are all the enabled ports. -/
theorem componentOutput_flood_iff {s : Lcore n} {m : Fin n} {mask : UInt32} {nbPorts : Nat}
    (hroom : s.qconf.Room) (hin : EnabledPort mask nbPorts (s.world.mbuf m).pkt.inPort)
    (hflood : s.world.read32 m = floodPort) :
    ∃ s' es, componentOutput s m = .ok s' ∧ s'.world.log = s.world.log ++ es ∧
      (AllocsSucceed es →
        ((∀ port, (copiesOn s'.world m port es).length =
            if EnabledPort mask nbPorts port ∧ port ≠ (s.world.mbuf m).pkt.inPort then 1 else 0) ↔
          2 ≤ (s.world.mbuf m).pkt.inPort ∧ ∀ port, EnabledPort mask nbPorts port ↔
            port = 0 ∨ port = 1 ∨ port = (s.world.mbuf m).pkt.inPort)) := by
  obtain ⟨s', es, hs, _, hlog, hcopies⟩ :=
    @pktFlood_copies n { s with world := (rtePktmbufAdj s.world m 4).2 } m hroom
  refine ⟨s', es, (componentOutput_flood hflood).trans hs, ?_, fun hget => ?_⟩
  · rw [hlog, adj_log]
  · rw [← floodedPorts_iff hin]
    refine forall_congr' fun port => ?_
    rw [hcopies hget port]
    by_cases h : port = 0 ∨ port = 1 <;>
      by_cases h' : EnabledPort mask nbPorts port ∧ port ≠ (s.world.mbuf m).pkt.inPort <;>
      simp [h, h']

/-- A frame from `inPort` in mbuf 0 behind a flood header, with two headers in their pool. -/
def floodedFrame (inPort : UInt8) : Lcore 3 where
  world := rxChain (initEal (fun m => if m = 0 then .packet else .header)
    (fun i => if i = 0 then some 1 else some 2) fun _ => 0) inPort [(0, List.replicate 64 0xFF)]
  qconf := LcoreQueueConf.zero 3

theorem allocsSucceed_floodedFrame {inPort : UInt8} {s' : Lcore 3} {es : List (Event 3)}
    (hrun : (match componentOutput (floodedFrame inPort) 0 with
      | .ok t => decide (AllocsSucceed t.world.log)
      | .error _ => false) = true)
    (hout : componentOutput (floodedFrame inPort) 0 = .ok s')
    (hlog : s'.world.log = (floodedFrame inPort).world.log ++ es) : AllocsSucceed es := by
  rw [hout] at hrun
  intro e he
  exact of_decide_eq_true hrun e (by rw [hlog]; exact List.mem_append_right _ he)

theorem componentOutput_flood_iff_threePorts :
    ∃ s' es, componentOutput (floodedFrame 2) 0 = .ok s' ∧
      s'.world.log = (floodedFrame 2).world.log ++ es ∧
      ((∀ port, (copiesOn s'.world 0 port es).length =
          if EnabledPort 7 3 port ∧ port ≠ 2 then 1 else 0) ↔
        (2 : UInt8) ≤ 2 ∧ ∀ port, EnabledPort 7 3 port ↔ port = 0 ∨ port = 1 ∨ port = 2) := by
  obtain ⟨s', es, hout, hlog, hiff⟩ := @componentOutput_flood_iff 3 (floodedFrame 2) 0 7 3
    (by unfold LcoreQueueConf.Room; decide) (by decide) (by decide)
  exact ⟨s', es, hout, hlog, hiff (allocsSucceed_floodedFrame (by decide) hout hlog)⟩

/-- A frame from port 0 with ports 0 and 1 enabled goes back out of port 0. -/
theorem componentOutput_flood_echo :
    ¬ ∀ (s : Lcore 3) (m : Fin 3) (mask : UInt32) (nbPorts : Nat), s.qconf.Room →
      nbPorts ≤ maxPorts → EnabledPort mask nbPorts (s.world.mbuf m).pkt.inPort →
      s.world.read32 m = floodPort → ∀ s' es, componentOutput s m = .ok s' →
      s'.world.log = s.world.log ++ es → AllocsSucceed es → ∀ port,
        (copiesOn s'.world m port es).length =
          if EnabledPort mask nbPorts port ∧ port ≠ (s.world.mbuf m).pkt.inPort then 1 else 0 := by
  intro h
  have hroom : (floodedFrame 0).qconf.Room := by unfold LcoreQueueConf.Room; decide
  obtain ⟨s', es, hs, _, hlog, hcopies⟩ := @pktFlood_copies 3
    { floodedFrame 0 with world := (rtePktmbufAdj (floodedFrame 0).world 0 4).2 } 0 hroom
  rw [adj_log] at hlog
  have hout : componentOutput (floodedFrame 0) 0 = .ok s' :=
    (componentOutput_flood (by decide)).trans hs
  have hget : AllocsSucceed es := allocsSucceed_floodedFrame (by decide) hout hlog
  have hclaim := h (floodedFrame 0) 0 3 2 hroom (by decide) (by decide) (by decide) s' es hout
    hlog hget 0
  rw [hcopies hget 0] at hclaim
  exact absurd hclaim (by decide)

end LearningSwitch
