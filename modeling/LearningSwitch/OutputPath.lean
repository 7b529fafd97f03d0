import LearningSwitch.FloodPorts

namespace LearningSwitch

variable {n : Nat}

/-- What `init_ports` sets up and nothing behind it changes. -/
def LcoreQueueConf.setUp (q : LcoreQueueConf n) :
    UInt16 × (Fin maxRxQueuePerLcore → UInt8) × (Fin maxPorts → UInt16) :=
  (q.nRxQueue, q.rxQueueList, q.txQueueId)

theorem sendBurst_setUp {s s' : Lcore n} {port : UInt8} (h : sendBurst s port = .ok s') :
    s'.qconf.setUp = s.qconf.setUp := by
  obtain ⟨p, _, h⟩ := StepRun.bind_eq_ok.mp h
  dsimp only at h
  split at h
  next => cases h
  next => exact Except.ok.inj h ▸ rfl

theorem pktSendSingle_setUp {s s' : Lcore n} {pkt : Fin n} {port : UInt8}
    (h : pktSendSingle s pkt port = .ok s') : s'.qconf.setUp = s.qconf.setUp := by
  obtain ⟨p, _, h⟩ := StepRun.bind_eq_ok.mp h
  obtain ⟨i, _, h⟩ := StepRun.bind_eq_ok.mp h
  dsimp only at h
  split at h
  next => exact (sendBurst_setUp h).trans rfl
  next => exact Except.ok.inj h ▸ rfl

theorem drainPort_setUp {s s' : Lcore n} {port : UInt8} (h : drainPort s port = .ok s') :
    s'.qconf.setUp = s.qconf.setUp := by
  obtain ⟨p, _, h⟩ := StepRun.bind_eq_ok.mp h
  dsimp only at h
  split at h
  next => exact Except.ok.inj h ▸ rfl
  next =>
    obtain ⟨t, ht, h⟩ := StepRun.bind_eq_ok.mp h
    have hset := sendBurst_setUp ht
    exact Except.ok.inj h ▸ hset

theorem drain_setUp {s s' : Lcore n} (h : drain s = .ok s') : s'.qconf.setUp = s.qconf.setUp := by
  have keeps : ∀ (t : Lcore n) (port : UInt8) (u : Lcore n), t.qconf.setUp = s.qconf.setUp → True →
      drainPort t port = .ok u → u.qconf.setUp = s.qconf.setUp :=
    fun _ _ _ hs _ ht => (drainPort_setUp ht).trans hs
  exact StepRun.run_invariant keeps rfl (StepRun.along_of_forall (fun _ _ => trivial) s) h

/-- The lcore went from `s` to `s'` and logged `es`: what waits in its queues waited there before
or was handed over in `es`. -/
structure Lcore.Moved (s s' : Lcore n) (es : List (Event n)) : Prop where
  room : s'.qconf.Room
  setUp : s'.qconf.setUp = s.qconf.setUp
  log : s'.world.log = s.world.log ++ es
  waiting : ∀ p x, x ∈ (s'.qconf.txMbufs p).entries → x ∈ (s.qconf.txMbufs p).entries ∨
    ∃ port m v, port.toNat = p.val ∧ x = some m ∧ (port, m, v) ∈ sends es

theorem Lcore.Moved.trans {s t u : Lcore n} {es fs : List (Event n)} (h : s.Moved t es)
    (h' : t.Moved u fs) : s.Moved u (es ++ fs) := by
  refine ⟨h'.room, h'.setUp.trans h.setUp, ?_, fun p x hx => ?_⟩
  · rw [h'.log, h.log, List.append_assoc]
  · rcases h'.waiting p x hx with hx | ⟨port, m, v, hp, hm, hsend⟩
    · rcases h.waiting p x hx with hx | ⟨port, m, v, hp, hm, hsend⟩
      · exact Or.inl hx
      · refine Or.inr ⟨port, m, v, hp, hm, ?_⟩
        rw [sends_append]
        exact List.mem_append_left _ hsend
    · refine Or.inr ⟨port, m, v, hp, hm, ?_⟩
      rw [sends_append]
      exact List.mem_append_right _ hsend

/-- A change of the memory alone. -/
theorem Lcore.Moved.world {s : Lcore n} (hroom : s.qconf.Room) {w : World n} {es : List (Event n)}
    (hlog : w.log = s.world.log ++ es) : s.Moved { s with world := w } es :=
  ⟨hroom, rfl, hlog, fun _ _ hx => Or.inl hx⟩

theorem pktSendSingle_moved {s : Lcore n} {port : UInt8} (pkt : Fin n) (hroom : s.qconf.Room)
    (hp : port.toNat < maxPorts) :
    ∃ s' es, pktSendSingle s pkt port = .ok s' ∧ s.Moved s' es ∧ s'.world.next = s.world.next ∧
      sends es = [(port, pkt, s.world.view pkt)] := by
  obtain ⟨s', es, hs, hroom', hnext, hlog, hsends⟩ := pktSendSingle_sends pkt hroom hp
  obtain ⟨t, ht, _, hothers, hsent⟩ := pktSendSingle_cases pkt hroom hp
  obtain rfl := Except.ok.inj (ht.symm.trans hs)
  refine ⟨t, es, hs, ⟨hroom', pktSendSingle_setUp hs, hlog, fun p x hx => ?_⟩, hnext, hsends⟩
  by_cases hport : p = ⟨port.toNat, hp⟩
  · subst hport
    rcases hsent with ⟨_, hentries, _⟩ | ⟨_, hlen, _⟩
    · rw [hentries] at hx
      rcases List.mem_append.mp hx with hx | hx
      · exact Or.inl hx
      · refine Or.inr ⟨port, pkt, s.world.view pkt, rfl, by simpa using hx, ?_⟩
        rw [hsends]
        exact List.mem_singleton.mpr rfl
    · rw [entries_of_len_zero hlen] at hx
      cases hx
  · rw [hothers p hport] at hx
    exact Or.inl hx

theorem sends_ofMemory {es : List (Event n)} (h : ∀ e ∈ es, e.ofMemory) : sends es = [] :=
  List.filterMap_eq_nil_iff.mpr fun e he => sending_ofMemory e (h e he)

/-- Freeing a chain hands nothing over. -/
theorem free_moved {s : Lcore n} (hroom : s.qconf.Room) (m : Option (Fin n)) :
    ∃ es, s.Moved { s with world := rtePktmbufFree s.world m } es ∧ sends es = [] ∧
      freed es = [m] := by
  obtain ⟨es, hes, hlog, hfreed⟩ := free_log s.world m
  refine ⟨.free m :: es, Lcore.Moved.world hroom hlog, ?_, hfreed⟩
  show sends es = []
  exact sends_ofMemory hes

/-- What the flood loop did for one port: it handed over a new header over `m`, or, when the pool
gave none, it handed over nothing and freed `m`. -/
def FloodedOn (m : Fin n) (w : World n) (port : UInt8) (es : List (Event n)) : Prop :=
  (∃ hdr view, sends es = [(port, hdr, view)] ∧ w.next hdr = some m) ∨
    (.getFailed .header ∈ es ∧ sends es = [] ∧ freed es = [some m])

/-- Ports 0 and 1, one after the other. -/
def FloodedOver (m : Fin n) (w : World n) (es : List (Event n)) : Prop :=
  ∃ es₀ es₁, es = es₀ ++ es₁ ∧ FloodedOn m w 0 es₀ ∧ FloodedOn m w 1 es₁

/-- One turn of the flood loop, which links nothing but its header. -/
theorem floodOne_moved {s : Lcore n} (m : Fin n) {port : UInt8} (hroom : s.qconf.Room)
    (hp : port.toNat < maxPorts) :
    ∃ s' es, floodOne m s port = .ok s' ∧ s.Moved s' es ∧ FloodedOn m s'.world port es ∧
      ∀ k, s'.world.next k ≠ s.world.next k → s'.world.next k = some m := by
  rcases pktDuplicate_cases s.world m with hdup | ⟨hdr, _, _, _, hdup⟩
  · have hfail : s.Moved { s with world := getFailedWorld s.world .header } [.getFailed .header] :=
      Lcore.Moved.world hroom rfl
    obtain ⟨es, hfree, hnone, hfreed⟩ := free_moved hfail.room (some m)
    refine ⟨_, .getFailed .header :: es, ?_, hfail.trans hfree, Or.inr ⟨?_, hnone, hfreed⟩, ?_⟩
    · rw [floodOne, hdup]
      rfl
    · exact List.mem_cons_self
    · intro k hk
      refine absurd ?_ hk
      show (rtePktmbufFree (getFailedWorld s.world .header) (some m)).next k = s.world.next k
      rw [(free_freedTo _ _).next]
      rfl
  · have hget : s.Moved { s with world := duplicated s.world hdr m } [.get hdr] :=
      Lcore.Moved.world hroom (duplicated_log s.world hdr m)
    obtain ⟨s', es, hs, hmoved, hnext, hsends⟩ := @pktSendSingle_moved n
      { s with world := duplicated s.world hdr m } port hdr hroom hp
    have hlink : s'.world.next hdr = some m := by rw [hnext, duplicated_next_self]
    refine ⟨s', .get hdr :: es, ?_, hget.trans hmoved, Or.inl ⟨hdr, _, hsends, hlink⟩, ?_⟩
    · rw [floodOne, hdup]
      exact hs
    · intro k hk
      by_cases hkh : k = hdr
      · rw [hkh, hlink]
      · refine absurd ?_ hk
        rw [hnext, duplicated_next_ne _ _ _ hkh]

theorem pktFlood_moved {s : Lcore n} (m : Fin n) (hroom : s.qconf.Room) :
    ∃ s' es, pktFlood s m = .ok s' ∧ s.Moved s' es ∧ FloodedOver m s'.world es := by
  obtain ⟨t, es, ht, hmoved, hflood, _⟩ := @floodOne_moved n s m 0 hroom (by decide)
  obtain ⟨s', fs, hs, hmoved', hflood', hlinks⟩ := @floodOne_moved n t m 1 hmoved.room (by decide)
  refine ⟨s', es ++ fs, ?_, hmoved.trans hmoved', es, fs, rfl, ?_, hflood'⟩
  · rw [pktFlood, StepRun.run_cons, ht, StepRun.ok_bind, StepRun.run_cons, hs]
    rfl
  · rcases hflood with ⟨hdr, view, hsends, hlink⟩ | hfailed
    · -- the second turn relinks the header to the same frame at most
      refine Or.inl ⟨hdr, view, hsends, ?_⟩
      by_cases hsame : s'.world.next hdr = t.world.next hdr
      · rw [hsame, hlink]
      · exact hlinks hdr hsame
    · exact Or.inr hfailed

/-- Whatever an lcore hands over or frees behind Ethane, it moves. -/
theorem componentOutput_moved {s s' : Lcore n} {m : Fin n} (hroom : s.qconf.Room)
    (h : componentOutput s m = .ok s') : ∃ es, s.Moved s' es := by
  have hadj : s.Moved { s with world := (rtePktmbufAdj s.world m 4).2 } [] :=
    Lcore.Moved.world hroom (by rw [adj_log, List.append_nil])
  rw [componentOutput] at h
  dsimp only at h
  split at h
  next =>
    obtain ⟨t, es, ht, hmoved, _⟩ := pktFlood_moved m hadj.room
    obtain rfl := Except.ok.inj (ht.symm.trans h)
    exact ⟨_, hadj.trans hmoved⟩
  next =>
    split at h
    next =>
      obtain ⟨es, hmoved, _⟩ := free_moved hadj.room (some m)
      exact ⟨_, Except.ok.inj h ▸ hadj.trans hmoved⟩
    next =>
      obtain ⟨t, es, ht, hmoved, _⟩ := pktSendSingle_moved m hadj.room (pktSendSingle_port h)
      obtain rfl := Except.ok.inj (ht.symm.trans h)
      exact ⟨_, hadj.trans hmoved⟩

end LearningSwitch
