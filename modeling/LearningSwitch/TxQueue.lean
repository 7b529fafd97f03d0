import LearningSwitch.Defs
import LearningSwitch.MbufFree
import LearningSwitch.StepRun

namespace LearningSwitch

/-- `struct mbuf_table`; entries from `len` on are stale. -/
structure MbufTable (n : Nat) where
  len : UInt32
  mTable : Fin maxPktBurst → Option (Fin n)

structure LcoreQueueConf (n : Nat) where
  nRxQueue : UInt16
  rxQueueList : Fin maxRxQueuePerLcore → UInt8
  txQueueId : Fin maxPorts → UInt16
  txMbufs : Fin maxPorts → MbufTable n

/-- An element of the global `lcore_queue_conf` before `init_ports`. -/
def LcoreQueueConf.zero (n : Nat) : LcoreQueueConf n where
  nRxQueue := 0
  rxQueueList := fun _ => 0
  txQueueId := fun _ => 0
  txMbufs := fun _ => { len := 0, mTable := fun _ => none }

structure Lcore (n : Nat) where
  world : World n
  qconf : LcoreQueueConf n

variable {n : Nat}

def MbufTable.entries (t : MbufTable n) : List (Option (Fin n)) :=
  (List.ofFn t.mTable).take t.len.toNat

def Lcore.setTable (s : Lcore n) (p : Fin maxPorts) (t : MbufTable n) : Lcore n :=
  { s with qconf := { s.qconf with txMbufs := Function.update s.qconf.txMbufs p t } }

def portIndex (port : UInt8) : Except Fault (Fin maxPorts) :=
  if h : port.toNat < maxPorts then .ok ⟨port.toNat, h⟩ else .error (.portIndex port)

def tableIndex (len : Nat) : Except Fault (Fin maxPktBurst) :=
  if h : len < maxPktBurst then .ok ⟨len, h⟩ else .error (.tableIndex len)

/-- The driver takes the entries from the front that its free descriptors allow. -/
def rteEthTxBurst (w : World n) (port : UInt8) (queueid : UInt16) (pkts : List (Option (Fin n))) :
    Nat × World n :=
  let ret := min pkts.length (w.txRoom w.bursts)
  (ret, { w with
    bursts := w.bursts + 1
    inFlight := w.inFlight ++ pkts.take ret
    log := w.log ++ (pkts.take ret).map (.accept port queueid) })

/-- `while (ret < n) { rte_pktmbuf_free(m_table[ret]); ret++; }` -/
def freeRejected (w : World n) (port : UInt8) : List (Option (Fin n)) → World n
  | [] => w
  | m :: ms => freeRejected (rtePktmbufFree (w.emit (.reject port m)) m) port ms

def sendBurst (s : Lcore n) (port : UInt8) : Except Fault (Lcore n) := do
  let p ← portIndex port
  let t := s.qconf.txMbufs p
  let len := t.len.toUInt16.toNat
  if maxPktBurst < len then .error (.tableIndex len)
  else
    let mTable := (List.ofFn t.mTable).take len
    let (ret, w) := rteEthTxBurst s.world port (s.qconf.txQueueId p) mTable
    let w := freeRejected w port (mTable.drop ret)
    .ok ({ s with world := w }.setTable p { t with len := 0 })

def pktSendSingle (s : Lcore n) (pkt : Fin n) (port : UInt8) : Except Fault (Lcore n) := do
  let p ← portIndex port
  let t := s.qconf.txMbufs p
  let len := t.len.toUInt16
  let i ← tableIndex len.toNat
  let s := { s with world := s.world.emit (.send port pkt (s.world.view pkt)) }
  let s := s.setTable p
    { len := (len + 1).toUInt32, mTable := Function.update t.mTable i (some pkt) }
  if maxPktBurst = (len + 1).toNat then sendBurst s port else .ok s

/-- The body of the drain loop of `main_loop`; `len` is cleared a second time. -/
def drainPort (s : Lcore n) (port : UInt8) : Except Fault (Lcore n) := do
  let p ← portIndex port
  if (s.qconf.txMbufs p).len = 0 then .ok s
  else
    let s ← sendBurst s port
    .ok (s.setTable p { s.qconf.txMbufs p with len := 0 })

def drain (s : Lcore n) : Except Fault (Lcore n) :=
  StepRun.run drainPort s ((List.range maxPorts).map UInt8.ofNat)

/-- Between operations every table has room for one more mbuf. -/
def LcoreQueueConf.Room (q : LcoreQueueConf n) : Prop :=
  ∀ p, (q.txMbufs p).len.toNat < maxPktBurst

theorem portIndex_ok {port : UInt8} (h : port.toNat < maxPorts) :
    portIndex port = .ok ⟨port.toNat, h⟩ :=
  dif_pos h

theorem tableIndex_ok {len : Nat} (h : len < maxPktBurst) : tableIndex len = .ok ⟨len, h⟩ :=
  dif_pos h

@[simp] theorem setTable_self (s : Lcore n) (p : Fin maxPorts) (t : MbufTable n) :
    (s.setTable p t).qconf.txMbufs p = t := by
  simp [Lcore.setTable]

theorem setTable_ne (s : Lcore n) {p q : Fin maxPorts} (t : MbufTable n) (h : q ≠ p) :
    (s.setTable p t).qconf.txMbufs q = s.qconf.txMbufs q := by
  simp [Lcore.setTable, h]

@[simp] theorem entries_len_zero (t : MbufTable n) : ({ t with len := 0 } : MbufTable n).entries = [] := by
  simp [MbufTable.entries]

theorem take_ofFn_update {α : Type} {k : Nat} (f : Fin k → α) (i : Fin k) (a : α) :
    (List.ofFn (Function.update f i a)).take (i.val + 1) = (List.ofFn f).take i.val ++ [a] := by
  have hi := i.isLt
  apply List.ext_getElem?
  intro j
  rcases Nat.lt_trichotomy j i.val with hj | hj | hj
  · have hne : (⟨j, by omega⟩ : Fin k) ≠ i := fun h => Nat.ne_of_lt hj (congrArg Fin.val h)
    have hjk : j < k := by omega
    rw [List.getElem?_append_left (by simp; omega), List.getElem?_take_of_lt (by omega),
      List.getElem?_take_of_lt hj, List.getElem?_ofFn, List.getElem?_ofFn, dif_pos hjk, dif_pos hjk,
      Function.update_of_ne hne]
  · subst hj
    rw [List.getElem?_take_of_lt (by omega), List.getElem?_ofFn, dif_pos hi,
      List.getElem?_append_right (by simp)]
    simp
  · rw [List.getElem?_eq_none (by simp; omega), List.getElem?_eq_none (by simp; omega)]

/-- Storing at index `len` and counting it appends to the queue. -/
theorem MbufTable.entries_push {t : MbufTable n} {i : Fin maxPktBurst} (m : Option (Fin n))
    (hi : i.val = t.len.toNat) {len : UInt32} (hlen : len.toNat = i.val + 1) :
    ({ len := len, mTable := Function.update t.mTable i m } : MbufTable n).entries =
      t.entries ++ [m] := by
  rw [MbufTable.entries, MbufTable.entries, hlen, ← hi]
  exact take_ofFn_update t.mTable i m

def burstWorld (w : World n) (port : UInt8) (queueid : UInt16) (pkts : List (Option (Fin n))) :
    World n :=
  freeRejected (rteEthTxBurst w port queueid pkts).2 port
    (pkts.drop (rteEthTxBurst w port queueid pkts).1)

theorem toUInt16_of_le {x : UInt32} (h : x.toNat ≤ maxPktBurst) : x.toUInt16.toNat = x.toNat := by
  have hb : x.toNat < 2 ^ 16 := Nat.lt_of_le_of_lt h (by decide)
  rw [UInt32.toNat_toUInt16, Nat.mod_eq_of_lt hb]

/-- A burst empties the queue of its port and leaves the other queues alone. -/
theorem sendBurst_ok {s : Lcore n} {port : UInt8} (hp : port.toNat < maxPorts)
    (hl : (s.qconf.txMbufs ⟨port.toNat, hp⟩).len.toNat ≤ maxPktBurst) :
    sendBurst s port = .ok ({ s with
      world := burstWorld s.world port (s.qconf.txQueueId ⟨port.toNat, hp⟩)
        (s.qconf.txMbufs ⟨port.toNat, hp⟩).entries }.setTable ⟨port.toNat, hp⟩
      { s.qconf.txMbufs ⟨port.toNat, hp⟩ with len := 0 }) := by
  rw [sendBurst, portIndex_ok hp, StepRun.ok_bind]
  simp only [toUInt16_of_le hl, if_neg (Nat.not_lt.mpr hl)]
  rfl

/-- `pkt_send_single` up to the comparison with `MAX_PKT_BURST`. -/
def Lcore.stored (s : Lcore n) (pkt : Fin n) (port : UInt8) (p : Fin maxPorts)
    (i : Fin maxPktBurst) : Lcore n :=
  { s with world := s.world.emit (.send port pkt (s.world.view pkt)) }.setTable p
    { len := ((s.qconf.txMbufs p).len.toUInt16 + 1).toUInt32
      mTable := Function.update (s.qconf.txMbufs p).mTable i (some pkt) }

theorem len_succ_toNat {x : UInt32} (h : x.toNat < maxPktBurst) :
    (x.toUInt16 + 1).toNat = x.toNat + 1 := by
  have hsmall : x.toNat + 1 < 2 ^ 16 := Nat.lt_of_le_of_lt h (by decide)
  rw [UInt16.toNat_add, toUInt16_of_le (Nat.le_of_lt h)]
  exact Nat.mod_eq_of_lt hsmall

theorem pktSendSingle_eq {s : Lcore n} {port : UInt8} (pkt : Fin n) (hp : port.toNat < maxPorts)
    (hl : (s.qconf.txMbufs ⟨port.toNat, hp⟩).len.toNat < maxPktBurst) :
    pktSendSingle s pkt port =
      if maxPktBurst = (s.qconf.txMbufs ⟨port.toNat, hp⟩).len.toNat + 1 then
        sendBurst (s.stored pkt port ⟨port.toNat, hp⟩ ⟨_, hl⟩) port
      else .ok (s.stored pkt port ⟨port.toNat, hp⟩ ⟨_, hl⟩) := by
  rw [pktSendSingle, portIndex_ok hp, StepRun.ok_bind]
  simp only [toUInt16_of_le (Nat.le_of_lt hl), tableIndex_ok hl, StepRun.ok_bind, len_succ_toNat hl]
  rfl

theorem stored_len (s : Lcore n) (pkt : Fin n) (port : UInt8) {p : Fin maxPorts}
    (hl : (s.qconf.txMbufs p).len.toNat < maxPktBurst) :
    ((s.stored pkt port p ⟨_, hl⟩).qconf.txMbufs p).len.toNat =
      (s.qconf.txMbufs p).len.toNat + 1 := by
  rw [Lcore.stored, setTable_self, UInt16.toNat_toUInt32, len_succ_toNat hl]

theorem stored_entries (s : Lcore n) (pkt : Fin n) (port : UInt8) {p : Fin maxPorts}
    (hl : (s.qconf.txMbufs p).len.toNat < maxPktBurst) :
    ((s.stored pkt port p ⟨_, hl⟩).qconf.txMbufs p).entries =
      (s.qconf.txMbufs p).entries ++ [some pkt] := by
  have hlen := stored_len s pkt port hl
  rw [Lcore.stored, setTable_self] at hlen ⊢
  exact MbufTable.entries_push (some pkt) rfl hlen

/-- The two outcomes of `pkt_send_single` on its own queue and the shared memory: the mbuf
waits, or it completes a burst. -/
def Lcore.SentTo (s : Lcore n) (pkt : Fin n) (port : UInt8) (p : Fin maxPorts) (s' : Lcore n) :
    Prop :=
  (s'.world = s.world.emit (.send port pkt (s.world.view pkt)) ∧
      (s'.qconf.txMbufs p).entries = (s.qconf.txMbufs p).entries ++ [some pkt] ∧
      (s.qconf.txMbufs p).len.toNat + 1 < maxPktBurst ∧
      (s'.qconf.txMbufs p).len.toNat < maxPktBurst) ∨
    (s'.world = burstWorld (s.world.emit (.send port pkt (s.world.view pkt))) port
        (s.qconf.txQueueId p) ((s.qconf.txMbufs p).entries ++ [some pkt]) ∧
      (s'.qconf.txMbufs p).len = 0 ∧ (s.qconf.txMbufs p).len.toNat + 1 = maxPktBurst)

theorem pktSendSingle_cases {s : Lcore n} {port : UInt8} (pkt : Fin n) (hroom : s.qconf.Room)
    (hp : port.toNat < maxPorts) :
    ∃ s', pktSendSingle s pkt port = .ok s' ∧ s'.qconf.txQueueId = s.qconf.txQueueId ∧
      (∀ q, q ≠ ⟨port.toNat, hp⟩ → s'.qconf.txMbufs q = s.qconf.txMbufs q) ∧
      s.SentTo pkt port ⟨port.toNat, hp⟩ s' := by
  have hl := hroom ⟨port.toNat, hp⟩
  have heq := pktSendSingle_eq pkt hp hl
  by_cases hfull : maxPktBurst = (s.qconf.txMbufs ⟨port.toNat, hp⟩).len.toNat + 1
  · have hburst := sendBurst_ok (s := s.stored pkt port ⟨port.toNat, hp⟩ ⟨_, hl⟩) hp
      (by rw [stored_len s pkt port hl]; omega)
    rw [stored_entries s pkt port hl] at hburst
    rw [if_pos hfull, hburst] at heq
    refine ⟨_, heq, rfl, fun q hq => ?_, Or.inr ⟨rfl, ?_, hfull.symm⟩⟩
    · rw [setTable_ne _ _ hq]
      exact setTable_ne _ _ hq
    · rw [setTable_self]
  · rw [if_neg hfull] at heq
    refine ⟨_, heq, rfl, fun q hq => setTable_ne _ _ hq, Or.inl ⟨rfl, stored_entries s pkt port hl, ?_, ?_⟩⟩
    · omega
    · rw [stored_len s pkt port hl]; omega

theorem pktSendSingle_room {s s' : Lcore n} {pkt : Fin n} {port : UInt8} (hroom : s.qconf.Room)
    (hp : port.toNat < maxPorts) (h : pktSendSingle s pkt port = .ok s') : s'.qconf.Room := by
  obtain ⟨t, ht, _, hother, hsent⟩ := pktSendSingle_cases pkt hroom hp
  obtain rfl := Except.ok.inj (ht.symm.trans h)
  intro q
  by_cases hq : q = ⟨port.toNat, hp⟩
  · subst hq
    rcases hsent with ⟨_, _, _, hlen⟩ | ⟨_, hlen, _⟩
    · exact hlen
    · rw [hlen]; decide
  · rw [hother q hq]
    exact hroom q

theorem len_lt_of_zero {x : UInt32} (h : x = 0) : x.toNat < maxPktBurst := by
  rw [h]
  decide

/-- A drained port has an empty queue; what waited in it went to the driver in one burst. -/
theorem drainPort_cases {s : Lcore n} {port : UInt8} (hroom : s.qconf.Room)
    (hp : port.toNat < maxPorts) :
    ∃ s', drainPort s port = .ok s' ∧ s'.qconf.Room ∧
      (s'.qconf.txMbufs ⟨port.toNat, hp⟩).len = 0 ∧
      (∀ q, q ≠ ⟨port.toNat, hp⟩ → s'.qconf.txMbufs q = s.qconf.txMbufs q) ∧
      (s' = s ∨ s'.world = burstWorld s.world port (s.qconf.txQueueId ⟨port.toNat, hp⟩)
        (s.qconf.txMbufs ⟨port.toNat, hp⟩).entries) := by
  by_cases hzero : (s.qconf.txMbufs ⟨port.toNat, hp⟩).len = 0
  · refine ⟨s, ?_, hroom, hzero, fun _ _ => rfl, Or.inl rfl⟩
    rw [drainPort, portIndex_ok hp, StepRun.ok_bind, if_pos hzero]
  · have hburst := sendBurst_ok hp (Nat.le_of_lt (hroom ⟨port.toNat, hp⟩))
    have hdrain : ∃ s', drainPort s port = .ok s' ∧
        s'.world = burstWorld s.world port (s.qconf.txQueueId ⟨port.toNat, hp⟩)
          (s.qconf.txMbufs ⟨port.toNat, hp⟩).entries ∧
        (s'.qconf.txMbufs ⟨port.toNat, hp⟩).len = 0 ∧
        ∀ q, q ≠ ⟨port.toNat, hp⟩ → s'.qconf.txMbufs q = s.qconf.txMbufs q := by
      rw [drainPort, portIndex_ok hp, StepRun.ok_bind, if_neg hzero, hburst]
      refine ⟨_, rfl, rfl, ?_, fun q hq => ?_⟩
      · rw [setTable_self]
      · rw [setTable_ne _ _ hq, setTable_ne _ _ hq]
    obtain ⟨s', hs, hw, hlen, hother⟩ := hdrain
    refine ⟨s', hs, fun q => ?_, hlen, hother, Or.inr hw⟩
    by_cases hq : q = ⟨port.toNat, hp⟩
    · rw [hq]
      exact len_lt_of_zero hlen
    · rw [hother q hq]
      exact hroom q

theorem portIndex_eq_ok {port : UInt8} {p : Fin maxPorts} (h : portIndex port = .ok p) :
    port.toNat < maxPorts := by
  by_contra hp
  rw [portIndex, dif_neg hp] at h
  cases h

theorem pktSendSingle_port {s s' : Lcore n} {pkt : Fin n} {port : UInt8}
    (h : pktSendSingle s pkt port = .ok s') : port.toNat < maxPorts := by
  obtain ⟨p, hp, _⟩ := StepRun.bind_eq_ok.mp h
  exact portIndex_eq_ok hp

theorem drainPort_room {s s' : Lcore n} {port : UInt8} (hroom : s.qconf.Room)
    (h : drainPort s port = .ok s') : s'.qconf.Room := by
  obtain ⟨p, hp, _⟩ := StepRun.bind_eq_ok.mp h
  obtain ⟨t, ht, hroom', _⟩ := drainPort_cases hroom (portIndex_eq_ok hp)
  rw [h] at ht
  exact Except.ok.inj ht ▸ hroom'

theorem drain_room {s s' : Lcore n} (hroom : s.qconf.Room) (h : drain s = .ok s') :
    s'.qconf.Room :=
  StepRun.run_invariant (fun _ _ _ hs _ ht => drainPort_room hs ht) hroom
    (StepRun.along_of_forall (fun _ _ => trivial) s) h

end LearningSwitch
