import Mathlib.Algebra.BigOperators.Group.Finset.Basic
import Mathlib.Algebra.BigOperators.Fin
import LearningSwitch.Ownership

namespace LearningSwitch

open LinkedChain

variable {n : Nat}

def LcoreQueueConf.queued (q : LcoreQueueConf n) : Multiset (Option (Fin n)) :=
  ∑ p, ↑(q.txMbufs p).entries

def LcoreQueueConf.others (q : LcoreQueueConf n) (p : Fin maxPorts) : Multiset (Option (Fin n)) :=
  ∑ r ∈ Finset.univ.erase p, ↑(q.txMbufs r).entries

theorem LcoreQueueConf.queued_eq (q : LcoreQueueConf n) (p : Fin maxPorts) :
    q.queued = ↑(q.txMbufs p).entries + q.others p :=
  (Finset.add_sum_erase Finset.univ (fun r => (↑(q.txMbufs r).entries : Multiset (Option (Fin n))))
    (Finset.mem_univ p)).symm

theorem LcoreQueueConf.others_congr {q q' : LcoreQueueConf n} {p : Fin maxPorts}
    (h : ∀ r, r ≠ p → q'.txMbufs r = q.txMbufs r) : q'.others p = q.others p :=
  Finset.sum_congr rfl fun r hr => by rw [h r (Finset.ne_of_mem_erase hr)]

/-- A send that fills its queue to `MAX_PKT_BURST` meets a driver that takes every header. -/
def Lcore.SendKeeps (s : Lcore n) (pkt : Fin n) (port : UInt8) : Prop :=
  ∀ p : Fin maxPorts, p.val = port.toNat → (s.qconf.txMbufs p).len.toNat + 1 = maxPktBurst →
    s.world.KeepsHeaders ((s.qconf.txMbufs p).entries ++ [some pkt])

instance (s : Lcore n) (pkt : Fin n) (port : UInt8) : Decidable (s.SendKeeps pkt port) :=
  inferInstanceAs (Decidable (∀ _ : Fin maxPorts, _ → _))

def Lcore.BurstKeeps (s : Lcore n) (port : UInt8) : Prop :=
  ∀ p : Fin maxPorts, p.val = port.toNat → s.world.KeepsHeaders (s.qconf.txMbufs p).entries

instance (s : Lcore n) (port : UInt8) : Decidable (s.BurstKeeps port) :=
  inferInstanceAs (Decidable (∀ _ : Fin maxPorts, _ → _))

/-- One turn of the flood loop finds a header in the pool and does not lose it. -/
def Lcore.FloodKeeps (s : Lcore n) (port : UInt8) : Prop :=
  ∃ hdr, s.world.pick s.world.gets = some hdr ∧ s.world.pooled hdr = true ∧
    (s.world.mbuf hdr).pool = .header ∧ s.SendKeeps hdr port

instance (s : Lcore n) (port : UInt8) : Decidable (s.FloodKeeps port) :=
  inferInstanceAs (Decidable (∃ _, _ ∧ _))

/-- What `s` keeps in flight and in its queues, and `rest` elsewhere, is owned. -/
structure Lcore.Owned (s : Lcore n) (rest : Multiset (Option (Fin n))) (lent : List (Fin n)) :
    Prop where
  room : s.qconf.Room
  owned : s.world.Owned (↑s.world.inFlight + s.qconf.queued + rest) lent

theorem Lcore.Owned.send {s s' : Lcore n} {rest : Multiset (Option (Fin n))} {lent : List (Fin n)}
    {pkt : Fin n} {port : UInt8} (h : s.Owned (some pkt ::ₘ rest) lent)
    (hkeeps : s.SendKeeps pkt port) (hs : pktSendSingle s pkt port = .ok s') :
    s'.Owned rest lent ∧ s.world.CleanTo s'.world := by
  have hp := pktSendSingle_port hs
  obtain ⟨t, ht, _, hother, hsent⟩ := pktSendSingle_cases pkt h.room hp
  obtain rfl := Except.ok.inj (ht.symm.trans hs)
  have hroom := pktSendSingle_room h.room hp hs
  have hothers := LcoreQueueConf.others_congr hother
  have howned := h.owned
  rw [s.qconf.queued_eq ⟨port.toNat, hp⟩] at howned
  have hemit := World.CleanTo.emit s.world (e := .send port pkt (s.world.view pkt)) (by simp) (by simp)
  rcases hsent with ⟨hw, hent, _⟩ | ⟨hw, hlen, hfull⟩
  · refine ⟨⟨hroom, ?_⟩, by rw [hw]; exact hemit⟩
    rw [t.qconf.queued_eq ⟨port.toNat, hp⟩, hothers, hent, hw]
    have hheld : (↑s.world.inFlight + (↑((s.qconf.txMbufs ⟨port.toNat, hp⟩).entries ++ [some pkt]) +
        s.qconf.others ⟨port.toNat, hp⟩) + rest : Multiset (Option (Fin n))) =
        ↑s.world.inFlight + (↑(s.qconf.txMbufs ⟨port.toNat, hp⟩).entries +
          s.qconf.others ⟨port.toNat, hp⟩) + some pkt ::ₘ rest := by
      rw [← Multiset.coe_add, Multiset.coe_singleton, ← Multiset.singleton_add]
      abel
    show (s.world.emit _).Owned (↑s.world.inFlight + _ + rest) lent
    rw [hheld]
    exact howned.congr rfl rfl
  · have hheld : (↑s.world.inFlight + (↑(s.qconf.txMbufs ⟨port.toNat, hp⟩).entries +
        s.qconf.others ⟨port.toNat, hp⟩) + some pkt ::ₘ rest : Multiset (Option (Fin n))) =
        ↑s.world.inFlight + ↑((s.qconf.txMbufs ⟨port.toNat, hp⟩).entries ++ [some pkt]) +
          (s.qconf.others ⟨port.toNat, hp⟩ + rest) := by
      rw [← Multiset.coe_add, Multiset.coe_singleton, ← Multiset.singleton_add]
      abel
    rw [hheld] at howned
    have hemitted : (s.world.emit (.send port pkt (s.world.view pkt))).Owned
        (↑s.world.inFlight + ↑((s.qconf.txMbufs ⟨port.toNat, hp⟩).entries ++ [some pkt]) +
          (s.qconf.others ⟨port.toNat, hp⟩ + rest)) lent := howned.congr rfl rfl
    obtain ⟨hburst, hclean⟩ := hemitted.burst port (s.qconf.txQueueId ⟨port.toNat, hp⟩)
      (hkeeps ⟨port.toNat, hp⟩ rfl hfull)
    refine ⟨⟨hroom, ?_⟩, by rw [hw]; exact hemit.trans hclean⟩
    rw [t.qconf.queued_eq ⟨port.toNat, hp⟩, hothers, entries_of_len_zero hlen, hw,
      Multiset.coe_nil, Multiset.zero_add, add_assoc]
    exact hburst

theorem Lcore.Owned.sendBurst {s s' : Lcore n} {rest : Multiset (Option (Fin n))}
    {lent : List (Fin n)} {port : UInt8} (h : s.Owned rest lent) (hkeeps : s.BurstKeeps port)
    (hs : LearningSwitch.sendBurst s port = .ok s') :
    s'.Owned rest lent ∧ s.world.CleanTo s'.world := by
  obtain ⟨p, hp, _⟩ := StepRun.bind_eq_ok.mp hs
  have hp := portIndex_eq_ok hp
  have hburst := sendBurst_ok hp (Nat.le_of_lt (h.room ⟨port.toNat, hp⟩))
  obtain rfl := Except.ok.inj (hburst.symm.trans hs)
  have howned := h.owned
  rw [s.qconf.queued_eq ⟨port.toNat, hp⟩, ← add_assoc, add_assoc _ (s.qconf.others _)] at howned
  obtain ⟨hburst, hclean⟩ := howned.burst port (s.qconf.txQueueId ⟨port.toNat, hp⟩)
    (hkeeps ⟨port.toNat, hp⟩ rfl)
  refine ⟨⟨fun q => ?_, ?_⟩, hclean⟩
  · by_cases hq : q = ⟨port.toNat, hp⟩
    · rw [hq, setTable_self]
      exact len_lt_of_zero rfl
    · rw [setTable_ne _ _ hq]
      exact h.room q
  · rw [LcoreQueueConf.queued_eq _ ⟨port.toNat, hp⟩,
      LcoreQueueConf.others_congr fun r hr => setTable_ne _ _ hr, setTable_self, entries_len_zero,
      Multiset.coe_nil, Multiset.zero_add, add_assoc]
    exact hburst

theorem Lcore.Owned.flood {s s' : Lcore n} {rest : Multiset (Option (Fin n))} {m : Fin n}
    {port : UInt8} (h : s.Owned rest [m]) (hkeeps : s.FloodKeeps port)
    (hs : floodOne m s port = .ok s') :
    s'.Owned rest [m] ∧ s.world.CleanTo s'.world ∧
      ∃ hdr view es, (s.world.mbuf hdr).pool = .header ∧ s'.world.log = s.world.log ++ es ∧
        sends es = [(port, hdr, view)] := by
  obtain ⟨hdr, hpick, hpooled, hpool, hsend⟩ := hkeeps
  rw [floodOne, pktDuplicate_ok m hpick hpooled hpool] at hs
  obtain ⟨hdupd, hclean⟩ := h.owned.duplicate hpooled hpool
  have howned : Lcore.Owned { s with world := duplicated s.world hdr m } (some hdr ::ₘ rest) [m] := by
    refine ⟨h.room, ?_⟩
    rw [Multiset.add_cons]
    exact hdupd
  have hsend' : Lcore.SendKeeps { s with world := duplicated s.world hdr m } hdr port := by
    intro p hp hfull x hx
    rw [(duplicated_sameOff s.world hdr m).pool]
    exact hsend p hp hfull x hx
  obtain ⟨hs', hclean'⟩ := howned.send hsend' hs
  obtain ⟨t, es, ht, _, _, hlog, hsends⟩ :=
    @pktSendSingle_sends n { s with world := duplicated s.world hdr m } port hdr h.room
      (pktSendSingle_port hs)
  obtain rfl := Except.ok.inj (ht.symm.trans hs)
  refine ⟨hs', hclean.trans hclean', hdr, _, .get hdr :: es, hpool, ?_, hsends⟩
  rw [hlog, duplicated_log, List.append_assoc]
  rfl

end LearningSwitch
