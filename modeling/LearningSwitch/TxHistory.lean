import LearningSwitch.TxQueue

namespace LearningSwitch

variable {n : Nat}

inductive TxOp (n : Nat)
  | send (pkt : Fin n) (port : UInt8)
  | drain

def TxOp.PortOk : TxOp n → Prop
  | .send _ port => port.toNat < maxPorts
  | .drain => True

instance : DecidablePred (@TxOp.PortOk n)
  | .send _ port => inferInstanceAs (Decidable (port.toNat < maxPorts))
  | .drain => inferInstanceAs (Decidable True)

def txStep (s : Lcore n) : TxOp n → Except Fault (Lcore n)
  | .send pkt port => pktSendSingle s pkt port
  | .drain => drain s

def sentTo (p : Fin maxPorts) (ops : List (TxOp n)) : List (Fin n) :=
  ops.filterMap fun
    | .send pkt port => if port.toNat = p.val then some pkt else none
    | .drain => none

def Event.disposal (p : Fin maxPorts) : Event n → Option (Option (Fin n))
  | .accept port _ m => if port.toNat = p.val then some m else none
  | .reject port m => if port.toNat = p.val then some m else none
  | _ => none

def Event.rejection : Event n → Option (Option (Fin n))
  | .reject _ m => some m
  | _ => none

/-- The entries of port `p` that the driver accepted or `send_burst` gave up, in order. -/
def disposed (p : Fin maxPorts) (log : List (Event n)) : List (Option (Fin n)) :=
  log.filterMap (Event.disposal p)

def rejected (log : List (Event n)) : List (Option (Fin n)) :=
  log.filterMap Event.rejection

structure TxHistory (ops : List (TxOp n)) (s : Lcore n) : Prop where
  room : s.qconf.Room
  fifo : ∀ p, (sentTo p ops).map some = disposed p s.world.log ++ (s.qconf.txMbufs p).entries
  frees : freed s.world.log = rejected s.world.log

theorem disposal_ofMemory (p : Fin maxPorts) (e : Event n) (h : e.ofMemory) :
    e.disposal p = none := by
  cases e <;> simp_all [Event.ofMemory, Event.disposal]

theorem rejection_ofMemory (e : Event n) (h : e.ofMemory) : e.rejection = none := by
  cases e <;> simp_all [Event.ofMemory, Event.rejection]

def burstEvents (port : UInt8) (queueid : UInt16) (pkts : List (Option (Fin n))) (ret : Nat) :
    List (Event n) :=
  (pkts.take ret).map (.accept port queueid) ++
    (pkts.drop ret).flatMap fun m => [.reject port m, .free m]

theorem filterMap_freeRejected {β : Type} {f : Event n → Option β}
    (hf : ∀ e, e.ofMemory → f e = none) (w : World n) (port : UInt8)
    (pkts : List (Option (Fin n))) :
    (freeRejected w port pkts).log.filterMap f =
      w.log.filterMap f ++ (pkts.flatMap fun m => [.reject port m, .free m]).filterMap f := by
  induction pkts generalizing w with
  | nil => simp [freeRejected]
  | cons m ms ih =>
    have hfree := (free_freedTo (w.emit (.reject port m)) m).filterMap_log hf
    rw [freeRejected, ih, hfree, filterMap_emit, filterMap_emit]
    cases hr : f (.reject port m) <;> cases hm : f (.free m) <;> simp [hr, hm]

theorem filterMap_burstWorld {β : Type} {f : Event n → Option β}
    (hf : ∀ e, e.ofMemory → f e = none) (w : World n) (port : UInt8) (queueid : UInt16)
    (pkts : List (Option (Fin n))) :
    (burstWorld w port queueid pkts).log.filterMap f = w.log.filterMap f ++
      (burstEvents port queueid pkts (rteEthTxBurst w port queueid pkts).1).filterMap f := by
  rw [burstWorld, filterMap_freeRejected hf]
  simp [rteEthTxBurst, burstEvents]

theorem filterMap_burstEvents {β : Type} (f : Event n → Option β) (port : UInt8) (queueid : UInt16)
    (pkts : List (Option (Fin n))) (ret : Nat) :
    (burstEvents port queueid pkts ret).filterMap f =
      (pkts.take ret).filterMap (fun m => f (.accept port queueid m)) ++
        (pkts.drop ret).flatMap fun m => [Event.reject port m, .free m].filterMap f := by
  rw [burstEvents, List.filterMap_append, List.filterMap_map, List.filterMap_flatMap]
  rfl

/-- A burst disposes of all its entries in order: the accepted ones first, then the others. -/
theorem disposed_burstEvents (p : Fin maxPorts) (port : UInt8) (queueid : UInt16)
    (pkts : List (Option (Fin n))) (ret : Nat) :
    disposed p (burstEvents port queueid pkts ret) = if port.toNat = p.val then pkts else [] := by
  rw [disposed, filterMap_burstEvents]
  by_cases hp : port.toNat = p.val
  · have haccept : ∀ m : Option (Fin n), Event.disposal p (.accept port queueid m) = some m :=
      fun m => if_pos hp
    have hreject : ∀ m : Option (Fin n),
        [Event.reject port m, .free m].filterMap (Event.disposal p) = [m] := by
      intro m
      have hr : Event.disposal p (.reject port m) = some m := if_pos hp
      rw [List.filterMap_cons_some hr]
      rfl
    have htaken : (pkts.take ret).filterMap (fun m => some m) = pkts.take ret := List.filterMap_some
    simp only [haccept, hreject, List.flatMap_singleton', if_pos hp]
    rw [htaken, List.take_append_drop]
  · have haccept : ∀ m : Option (Fin n), Event.disposal p (.accept port queueid m) = none :=
      fun m => if_neg hp
    have hreject : ∀ m : Option (Fin n),
        [Event.reject port m, .free m].filterMap (Event.disposal p) = [] := by
      intro m
      have hr : Event.disposal p (.reject port m) = none := if_neg hp
      rw [List.filterMap_cons_none hr]
      rfl
    simp [haccept, hreject, if_neg hp]

/-- The driver's part of a burst frees nothing, and each entry given up is freed at once. -/
theorem freed_burstEvents (port : UInt8) (queueid : UInt16) (pkts : List (Option (Fin n)))
    (ret : Nat) :
    freed (burstEvents port queueid pkts ret) = rejected (burstEvents port queueid pkts ret) := by
  rw [freed, rejected, filterMap_burstEvents, filterMap_burstEvents]
  rfl

theorem disposed_burstWorld (p : Fin maxPorts) (w : World n) (port : UInt8) (queueid : UInt16)
    (pkts : List (Option (Fin n))) :
    disposed p (burstWorld w port queueid pkts).log =
      disposed p w.log ++ if port.toNat = p.val then pkts else [] := by
  have hburst := disposed_burstEvents p port queueid pkts (rteEthTxBurst w port queueid pkts).1
  rw [disposed] at hburst
  rw [disposed, filterMap_burstWorld (disposal_ofMemory p), hburst, disposed]

theorem freed_burstWorld {w : World n} (port : UInt8) (queueid : UInt16)
    (pkts : List (Option (Fin n))) (h : freed w.log = rejected w.log) :
    freed (burstWorld w port queueid pkts).log = rejected (burstWorld w port queueid pkts).log := by
  have hburst := freed_burstEvents port queueid pkts (rteEthTxBurst w port queueid pkts).1
  rw [freed, rejected] at h hburst ⊢
  rw [filterMap_burstWorld freeCall_ofMemory, filterMap_burstWorld rejection_ofMemory, h, hburst]

theorem disposed_emit_send (p : Fin maxPorts) (w : World n) (port : UInt8) (m : Fin n)
    (v : FrameView) : disposed p (w.emit (.send port m v)).log = disposed p w.log := by
  rw [disposed, filterMap_emit]
  exact List.append_nil _

theorem freed_emit_send {w : World n} (port : UInt8) (m : Fin n) (v : FrameView)
    (h : freed w.log = rejected w.log) :
    freed (w.emit (.send port m v)).log = rejected (w.emit (.send port m v)).log := by
  rw [freed, rejected] at h ⊢
  rw [filterMap_emit, filterMap_emit, h]
  rfl

/-- What was handed over, with the port and the frame at that moment. -/
def Event.sending : Event n → Option (UInt8 × Fin n × FrameView)
  | .send port m view => some (port, m, view)
  | _ => none

def sends (log : List (Event n)) : List (UInt8 × Fin n × FrameView) :=
  log.filterMap Event.sending

theorem sending_ofMemory (e : Event n) (h : e.ofMemory) : e.sending = none := by
  cases e <;> simp_all [Event.ofMemory, Event.sending]

theorem sends_append (es fs : List (Event n)) : sends (es ++ fs) = sends es ++ sends fs :=
  List.filterMap_append

theorem sends_burstEvents (port : UInt8) (queueid : UInt16) (pkts : List (Option (Fin n)))
    (ret : Nat) : sends (burstEvents port queueid pkts ret) = [] := by
  have haccept : ∀ m : Option (Fin n), Event.sending (.accept port queueid m) = none := fun _ => rfl
  have hreject : ∀ m : Option (Fin n), [Event.reject port m, .free m].filterMap Event.sending = [] :=
    fun _ => rfl
  rw [sends, filterMap_burstEvents]
  simp [haccept, hreject]

theorem freeRejected_next (w : World n) (port : UInt8) (pkts : List (Option (Fin n))) :
    (freeRejected w port pkts).next = w.next := by
  induction pkts generalizing w with
  | nil => rfl
  | cons m ms ih =>
    rw [freeRejected, ih, (free_freedTo (w.emit (.reject port m)) m).next]
    rfl

theorem freeRejected_log (w : World n) (port : UInt8) (pkts : List (Option (Fin n))) :
    ∃ es, (freeRejected w port pkts).log = w.log ++ es := by
  induction pkts generalizing w with
  | nil => exact ⟨[], (List.append_nil _).symm⟩
  | cons m ms ih =>
    obtain ⟨es, hes⟩ := ih (rtePktmbufFree (w.emit (.reject port m)) m)
    obtain ⟨fs, _, hfs, _⟩ := free_log (w.emit (.reject port m)) m
    refine ⟨[.reject port m, .free m] ++ fs ++ es, ?_⟩
    rw [freeRejected, hes, hfs]
    simp [World.emit]

theorem burstWorld_log (w : World n) (port : UInt8) (queueid : UInt16)
    (pkts : List (Option (Fin n))) :
    ∃ es, (burstWorld w port queueid pkts).log = w.log ++ es ∧ sends es = [] := by
  obtain ⟨es, hes⟩ := freeRejected_log (rteEthTxBurst w port queueid pkts).2 port
    (pkts.drop (rteEthTxBurst w port queueid pkts).1)
  have hlog : (burstWorld w port queueid pkts).log =
      w.log ++ ((pkts.take (rteEthTxBurst w port queueid pkts).1).map (.accept port queueid) ++ es) := by
    rw [burstWorld, hes, ← List.append_assoc]
    rfl
  have hread := filterMap_burstWorld sending_ofMemory w port queueid pkts
  rw [hlog, List.filterMap_append, List.append_cancel_left_eq, ← sends, ← sends,
    sends_burstEvents] at hread
  exact ⟨_, hlog, hread⟩

/-- `pkt_send_single` hands its mbuf over once, on its port, and relinks nothing. -/
theorem pktSendSingle_sends {s : Lcore n} {port : UInt8} (pkt : Fin n) (hroom : s.qconf.Room)
    (hp : port.toNat < maxPorts) :
    ∃ s' es, pktSendSingle s pkt port = .ok s' ∧ s'.qconf.Room ∧ s'.world.next = s.world.next ∧
      s'.world.log = s.world.log ++ es ∧ sends es = [(port, pkt, s.world.view pkt)] := by
  obtain ⟨s', hs, _, _, hsent⟩ := pktSendSingle_cases pkt hroom hp
  have hroom' := pktSendSingle_room hroom hp hs
  rcases hsent with ⟨hw, _⟩ | ⟨hw, _⟩
  · exact ⟨s', [.send port pkt (s.world.view pkt)], hs, hroom', by rw [hw]; rfl, by rw [hw]; rfl, rfl⟩
  · obtain ⟨es, hes, hnone⟩ := burstWorld_log (s.world.emit (.send port pkt (s.world.view pkt))) port
      (s.qconf.txQueueId ⟨port.toNat, hp⟩) ((s.qconf.txMbufs ⟨port.toNat, hp⟩).entries ++ [some pkt])
    refine ⟨s', [.send port pkt (s.world.view pkt)] ++ es, hs, hroom', ?_, ?_, ?_⟩
    · rw [hw, burstWorld, freeRejected_next]; rfl
    · rw [hw, hes]; simp [World.emit]
    · rw [sends_append, hnone]; rfl

theorem sentTo_snoc_send (p : Fin maxPorts) (ops : List (TxOp n)) (pkt : Fin n) (port : UInt8) :
    sentTo p (ops ++ [.send pkt port]) =
      sentTo p ops ++ if port.toNat = p.val then [pkt] else [] := by
  by_cases hp : port.toNat = p.val <;> simp [sentTo, hp]

theorem sentTo_snoc_drain (p : Fin maxPorts) (ops : List (TxOp n)) :
    sentTo p (ops ++ [.drain]) = sentTo p ops := by
  simp [sentTo]

theorem entries_of_len_zero {t : MbufTable n} (h : t.len = 0) : t.entries = [] := by
  simp [MbufTable.entries, h]

theorem TxHistory.send {ops : List (TxOp n)} {s : Lcore n} (pkt : Fin n) {port : UInt8}
    (h : TxHistory ops s) (hp : port.toNat < maxPorts) :
    ∃ s', pktSendSingle s pkt port = .ok s' ∧ TxHistory (ops ++ [.send pkt port]) s' ∧
      ∀ q, q ≠ ⟨port.toNat, hp⟩ → s'.qconf.txMbufs q = s.qconf.txMbufs q := by
  obtain ⟨s', hs, _, hother, hsent⟩ := pktSendSingle_cases pkt h.room hp
  refine ⟨s', hs, ⟨pktSendSingle_room h.room hp hs, fun p => ?_, ?_⟩, hother⟩
  · have hfifo := h.fifo p
    rw [sentTo_snoc_send, List.map_append, hfifo]
    by_cases hpp : port.toNat = p.val
    · obtain rfl : p = ⟨port.toNat, hp⟩ := Fin.ext hpp.symm
      rcases hsent with ⟨hw, hent, _, _⟩ | ⟨hw, hlen, _⟩
      · rw [hw, hent, disposed_emit_send]
        simp
      · rw [hw, entries_of_len_zero hlen, disposed_burstWorld, disposed_emit_send]
        simp
    · have hq : p ≠ ⟨port.toNat, hp⟩ := fun he => hpp (by rw [he])
      rw [hother p hq, if_neg hpp]
      rcases hsent with ⟨hw, _⟩ | ⟨hw, _⟩
      · rw [hw, disposed_emit_send]
        simp
      · rw [hw, disposed_burstWorld, disposed_emit_send, if_neg hpp]
        simp
  · rcases hsent with ⟨hw, _⟩ | ⟨hw, _⟩
    · rw [hw]
      exact freed_emit_send _ _ _ h.frees
    · rw [hw]
      exact freed_burstWorld _ _ _ (freed_emit_send _ _ _ h.frees)

theorem TxHistory.drainPort {ops : List (TxOp n)} {s : Lcore n} {port : UInt8}
    (h : TxHistory ops s) (hp : port.toNat < maxPorts) :
    ∃ s', drainPort s port = .ok s' ∧ TxHistory ops s' ∧
      (s'.qconf.txMbufs ⟨port.toNat, hp⟩).len = 0 ∧
      ∀ q, q ≠ ⟨port.toNat, hp⟩ → s'.qconf.txMbufs q = s.qconf.txMbufs q := by
  obtain ⟨s', hs, hroom, hlen, hother, hw⟩ := drainPort_cases h.room hp
  refine ⟨s', hs, ?_, hlen, hother⟩
  rcases hw with rfl | hw
  · exact h
  · refine ⟨hroom, fun q => ?_, ?_⟩
    · rw [hw, disposed_burstWorld, h.fifo q]
      by_cases hq : q = ⟨port.toNat, hp⟩
      · rw [hq, entries_of_len_zero hlen, if_pos rfl, List.append_nil]
      · rw [hother q hq, if_neg fun he => hq (Fin.ext he.symm), List.append_nil]
    · rw [hw]
      exact freed_burstWorld _ _ _ h.frees

/-- The drain loop over any list of ports empties their queues and fills none. -/
theorem TxHistory.drainPorts {ops : List (TxOp n)} {s : Lcore n} {ports : List UInt8}
    (h : TxHistory ops s) (hp : ∀ port ∈ ports, port.toNat < maxPorts) :
    ∃ s', StepRun.run LearningSwitch.drainPort s ports = .ok s' ∧ TxHistory ops s' ∧
      ∀ q, (∃ port ∈ ports, port.toNat = q.val) ∨ (s.qconf.txMbufs q).len = 0 →
        (s'.qconf.txMbufs q).len = 0 := by
  induction ports generalizing s with
  | nil =>
    refine ⟨s, rfl, h, fun q hq => ?_⟩
    rcases hq with ⟨port, hport, _⟩ | hq
    · cases hport
    · exact hq
  | cons port ports ih =>
    have hport := hp port List.mem_cons_self
    obtain ⟨t, ht, hhist, hlen, hother⟩ := h.drainPort hport
    obtain ⟨s', hs, hhist', hzero⟩ := ih hhist fun q hq => hp q (List.mem_cons_of_mem _ hq)
    refine ⟨s', StepRun.run_cons_ok.mpr ⟨t, ht, hs⟩, hhist', fun q hq => hzero q ?_⟩
    by_cases hqp : q = ⟨port.toNat, hport⟩
    · right
      rw [hqp, hlen]
    · rcases hq with ⟨r, hr, hrq⟩ | hq
      · rcases List.mem_cons.mp hr with rfl | hr
        · exact absurd (Fin.ext hrq.symm) hqp
        · exact Or.inl ⟨r, hr, hrq⟩
      · right
        rw [hother q hqp, hq]

theorem drainList_toNat {port : UInt8} (h : port ∈ (List.range maxPorts).map UInt8.ofNat) :
    port.toNat < maxPorts := by
  obtain ⟨i, hi, rfl⟩ := List.mem_map.mp h
  rw [List.mem_range] at hi
  have hsmall : i < 2 ^ 8 := Nat.lt_trans hi (by decide)
  rwa [UInt8.toNat_ofNat_of_lt' hsmall]

theorem mem_drainList (p : Fin maxPorts) :
    ∃ port ∈ (List.range maxPorts).map UInt8.ofNat, port.toNat = p.val := by
  have hsmall : p.val < 2 ^ 8 := Nat.lt_trans p.isLt (by decide)
  exact ⟨UInt8.ofNat p, List.mem_map_of_mem (List.mem_range.mpr p.isLt),
    UInt8.toNat_ofNat_of_lt' hsmall⟩

theorem TxHistory.drain {ops : List (TxOp n)} {s : Lcore n} (h : TxHistory ops s) :
    ∃ s', LearningSwitch.drain s = .ok s' ∧ TxHistory (ops ++ [.drain]) s' ∧
      ∀ q, (s'.qconf.txMbufs q).len = 0 := by
  obtain ⟨s', hs, hhist, hzero⟩ := h.drainPorts fun port hport => drainList_toNat hport
  refine ⟨s', hs, ⟨hhist.room, fun p => ?_, hhist.frees⟩, fun q => hzero q (Or.inl (mem_drainList q))⟩
  rw [sentTo_snoc_drain]
  exact hhist.fifo p

theorem TxHistory.step {ops : List (TxOp n)} {s : Lcore n} {op : TxOp n} (h : TxHistory ops s)
    (hop : op.PortOk) : ∃ s', txStep s op = .ok s' ∧ TxHistory (ops ++ [op]) s' := by
  cases op with
  | send pkt port =>
    obtain ⟨s', hs, hhist, _⟩ := h.send pkt hop
    exact ⟨s', hs, hhist⟩
  | drain =>
    obtain ⟨s', hs, hhist, _⟩ := h.drain
    exact ⟨s', hs, hhist⟩

theorem TxHistory.run {done ops : List (TxOp n)} {s : Lcore n} (h : TxHistory done s)
    (hops : ∀ op ∈ ops, op.PortOk) :
    ∃ s', StepRun.run txStep s ops = .ok s' ∧ TxHistory (done ++ ops) s' := by
  induction ops generalizing done s with
  | nil => exact ⟨s, rfl, by rwa [List.append_nil]⟩
  | cons op ops ih =>
    obtain ⟨t, ht, hhist⟩ := h.step (hops op List.mem_cons_self)
    obtain ⟨s', hs, hhist'⟩ := ih hhist fun o ho => hops o (List.mem_cons_of_mem _ ho)
    refine ⟨s', StepRun.run_cons_ok.mpr ⟨t, ht, hs⟩, ?_⟩
    rwa [List.append_assoc] at hhist'

theorem TxHistory.init {s : Lcore n} (hlen : ∀ p, (s.qconf.txMbufs p).len = 0)
    (hlog : s.world.log = []) : TxHistory [] s := by
  refine ⟨fun p => ?_, fun p => ?_, by rw [hlog]; rfl⟩
  · rw [hlen p]; decide
  · rw [entries_of_len_zero (hlen p), hlog]; rfl

/-- From empty queues no run of sends and drains meets a fault, so no store or read leaves its
array. Each queue is first in first out: what was handed over is what was disposed of, accepted
or given up, followed by what still waits, and exactly the given up entries are freed. -/
theorem txRun_fifo {s₀ : Lcore n} {ops : List (TxOp n)}
    (hlen : ∀ p, (s₀.qconf.txMbufs p).len = 0) (hlog : s₀.world.log = [])
    (hops : ∀ op ∈ ops, op.PortOk) :
    ∃ s, StepRun.run txStep s₀ ops = .ok s ∧
      (∀ p, (s.qconf.txMbufs p).len.toNat < maxPktBurst) ∧
      (∀ p, (sentTo p ops).map some = disposed p s.world.log ++ (s.qconf.txMbufs p).entries) ∧
      freed s.world.log = rejected s.world.log ∧
      (∀ pkt port, port.toNat < maxPorts → ∃ s', pktSendSingle s pkt port = .ok s' ∧
        ∀ q : Fin maxPorts, q.val ≠ port.toNat → s'.qconf.txMbufs q = s.qconf.txMbufs q) ∧
      (∀ port : UInt8, port.toNat < maxPorts → ∃ s', drainPort s port = .ok s' ∧
        ∀ q : Fin maxPorts, q.val ≠ port.toNat → s'.qconf.txMbufs q = s.qconf.txMbufs q) ∧
      ∃ s', drain s = .ok s' ∧ ∀ p, (s'.qconf.txMbufs p).entries = [] := by
  obtain ⟨s, hs, hhist⟩ := (TxHistory.init hlen hlog).run hops
  refine ⟨s, hs, hhist.room, hhist.fifo, hhist.frees, fun pkt port hp => ?_, fun port hp => ?_, ?_⟩
  · obtain ⟨s', hs', _, hother⟩ := hhist.send pkt hp
    exact ⟨s', hs', fun q hq => hother q fun he => hq (congrArg Fin.val he)⟩
  · obtain ⟨s', hs', _, _, hother⟩ := hhist.drainPort hp
    exact ⟨s', hs', fun q hq => hother q fun he => hq (congrArg Fin.val he)⟩
  · obtain ⟨s', hs', _, hzero⟩ := hhist.drain
    exact ⟨s', hs', fun p => entries_of_len_zero (hzero p)⟩

theorem txRun_fifo_shortBurst :
    ∃ s, StepRun.run txStep
        ⟨initEal (fun _ : Fin 2 => .packet) (fun _ => none) fun _ => 1, LcoreQueueConf.zero 2⟩
        [.send 0 1, .send 1 1, .drain] = .ok s ∧
      ∀ p, (sentTo p [.send 0 1, .send 1 1, .drain]).map some =
        disposed p s.world.log ++ (s.qconf.txMbufs p).entries := by
  obtain ⟨s, hs, _, hfifo, _⟩ := @txRun_fifo 2
    ⟨initEal (fun _ => .packet) (fun _ => none) fun _ => 1, LcoreQueueConf.zero 2⟩
    [.send 0 1, .send 1 1, .drain] (fun _ => rfl) rfl (by decide)
  exact ⟨s, hs, hfifo⟩

end LearningSwitch
