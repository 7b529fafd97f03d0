import LearningSwitch.QueueOwnership

namespace LearningSwitch

open LinkedChain

/-- A call of `pkt_flood`: the flooded mbuf, where in the log it began and the headers it sent. -/
structure FloodRecord (n : Nat) where
  m : Fin n
  start : Nat
  copies : List (Fin n)

/-- The lcores with their queues over the memory they share, what they have received and not yet
passed on, and the floods so far. -/
structure TxSystem (k n : Nat) where
  world : World n
  qconf : Fin k → LcoreQueueConf n
  received : List (Fin n)
  floods : List (FloodRecord n)

variable {k n : Nat}

def TxSystem.boot (k : Nat) (pools : Fin n → Pool) (pick : Nat → Option (Fin n))
    (txRoom : Nat → Nat) : TxSystem k n where
  world := initEal pools pick txRoom
  qconf := fun _ => .zero n
  received := []
  floods := []

/-- The calls of lcore `l`, and the two things a driver does. -/
inductive TxStep (k n : Nat)
  | receive (inPort : UInt8) (segs : List (Fin n × List UInt8))
  | flood (l : Fin k) (m : Fin n)
  | sendSingle (l : Fin k) (m : Fin n) (port : UInt8)
  | sendBurst (l : Fin k) (port : UInt8)
  | complete (i : Nat)

def TxSystem.lcore (s : TxSystem k n) (l : Fin k) : Lcore n :=
  ⟨s.world, s.qconf l⟩

def TxSystem.setLcore (s : TxSystem k n) (l : Fin k) (t : Lcore n) : TxSystem k n :=
  { s with world := t.world, qconf := Function.update s.qconf l t.qconf }

/-- The mbufs that a driver may fill: they are in the packet pool. -/
def TxSystem.Fillable (s : TxSystem k n) (segs : List (Fin n)) : Prop :=
  segs.Nodup ∧ ∀ x ∈ segs, s.world.pooled x = true ∧ (s.world.mbuf x).pool = .packet

instance (s : TxSystem k n) (segs : List (Fin n)) : Decidable (s.Fillable segs) :=
  inferInstanceAs (Decidable (_ ∧ _))

/-- A call on an mbuf that was not received, or a completion past the end, changes nothing. -/
def TxSystem.step (s : TxSystem k n) : TxStep k n → Except Fault (TxSystem k n)
  | .receive _ [] => .ok s
  | .receive inPort ((m, bytes) :: segs) =>
    if s.Fillable (((m, bytes) :: segs).map Prod.fst) then
      .ok { s with
        world := rxChain s.world inPort ((m, bytes) :: segs), received := m :: s.received }
    else .ok s
  | .flood l m =>
    if m ∈ s.received then do
      let t ← pktFlood (s.lcore l) m
      let copies := (sends (t.world.log.drop s.world.log.length)).map fun (_, c, _) => c
      .ok { s.setLcore l t with
        received := s.received.erase m
        floods := s.floods ++ [⟨m, s.world.log.length, copies⟩] }
    else .ok s
  | .sendSingle l m port =>
    if m ∈ s.received then do
      let t ← pktSendSingle (s.lcore l) m port
      .ok { s.setLcore l t with received := s.received.erase m }
    else .ok s
  | .sendBurst l port => do
    let t ← sendBurst (s.lcore l) port
    .ok (s.setLcore l t)
  | .complete i =>
    match s.world.inFlight[i]? with
    | none => .ok s
    | some r =>
      .ok { s with
        world := rtePktmbufFree { s.world with inFlight := s.world.inFlight.eraseIdx i } r }

/-- Once all its copies have been freed, the flooded mbuf has gone back to its pool once, counted
up to the moment the pool gives it out again. -/
def FloodRecord.ReturnedOnce (r : FloodRecord n) (log : List (Event n)) : Prop :=
  (∀ h ∈ r.copies, .free (some h) ∈ log.drop r.start) →
    ((log.drop r.start).takeWhile fun e => e ≠ .get r.m).count (.put r.m) = 1

/-- The mbufs that wait in a queue or have been accepted by the driver. -/
def TxSystem.Pending (s : TxSystem k n) (h : Fin n) : Prop :=
  some h ∈ s.world.inFlight ∨ ∃ l p, some h ∈ ((s.qconf l).txMbufs p).entries

/-- Ownership is sound: no segment is freed from inside its pool, nothing a pending header leads
to is in its pool, and flooded mbufs are returned once. -/
structure TxSystem.Sound (s : TxSystem k n) : Prop where
  freedOutside : ∀ x, .freeSeg x true ∉ s.world.log
  linkedOutside : ∀ h, s.Pending h → ∀ x, Reaches s.world.next h x → s.world.pooled x = false
  returnedOnce : ∀ r ∈ s.floods, r.ReturnedOnce s.world.log

/-- The step allocates every header a flood asks for, and frees no header. -/
def TxStep.KeepsHeaders (s : TxSystem k n) : TxStep k n → Prop
  | .receive _ _ => True
  | .flood l m => m ∈ s.received →
      StepRun.Along (floodOne m) (fun t port => t.FloodKeeps port) (s.lcore l) [0, 1]
  | .sendSingle l m port => m ∈ s.received → (s.lcore l).SendKeeps m port
  | .sendBurst l port => (s.lcore l).BurstKeeps port
  | .complete i => ∀ h, s.world.inFlight[i]? = some (some h) → (s.world.mbuf h).pool ≠ .header

instance (s : TxSystem k n) : ∀ a : TxStep k n, Decidable (a.KeepsHeaders s)
  | .receive _ _ => inferInstanceAs (Decidable True)
  | .flood _ _ => inferInstanceAs (Decidable (_ → StepRun.Along _ _ _ _))
  | .sendSingle _ _ _ => inferInstanceAs (Decidable (_ → Lcore.SendKeeps _ _ _))
  | .sendBurst _ _ => inferInstanceAs (Decidable (Lcore.BurstKeeps _ _))
  | .complete _ => inferInstanceAs (Decidable (∀ _, _ → _))

def TxSystem.elsewhere (s : TxSystem k n) (l : Fin k) : Multiset (Option (Fin n)) :=
  ∑ j ∈ Finset.univ.erase l, (s.qconf j).queued

def TxSystem.held (s : TxSystem k n) : Multiset (Option (Fin n)) :=
  ↑s.world.inFlight + (∑ l, (s.qconf l).queued) + ↑(s.received.map some)

/-- Some copy of the flood has not been freed since it began. -/
def FloodRecord.Kept (r : FloodRecord n) (w : World n) : Prop :=
  r.start ≤ w.log.length ∧
    ∃ h ∈ r.copies, (w.mbuf h).pool = .header ∧ .free (some h) ∉ w.log.drop r.start

structure TxSystem.Inv (s : TxSystem k n) : Prop where
  room : ∀ l, (s.qconf l).Room
  owned : s.world.Owned s.held []
  log : ∀ x, .freeSeg x true ∉ s.world.log
  floods : ∀ r ∈ s.floods, r.Kept s.world

theorem TxSystem.held_eq (s : TxSystem k n) (l : Fin k) :
    s.held = ↑s.world.inFlight + (s.qconf l).queued + (s.elsewhere l + ↑(s.received.map some)) := by
  have hsum : ∑ j, (s.qconf j).queued = (s.qconf l).queued + s.elsewhere l :=
    (Finset.add_sum_erase Finset.univ (fun j => (s.qconf j).queued) (Finset.mem_univ l)).symm
  rw [TxSystem.held, hsum]
  abel

theorem setLcore_elsewhere (s : TxSystem k n) (l : Fin k) (t : Lcore n) :
    (s.setLcore l t).elsewhere l = s.elsewhere l :=
  Finset.sum_congr rfl fun j hj => by
    simp only [TxSystem.setLcore, Function.update_of_ne (Finset.ne_of_mem_erase hj)]

theorem TxSystem.Inv.lcore {s : TxSystem k n} (h : s.Inv) (l : Fin k) :
    (s.lcore l).Owned (s.elsewhere l + ↑(s.received.map some)) [] := by
  have howned := h.owned
  rw [s.held_eq l] at howned
  exact ⟨h.room l, howned⟩

theorem FloodRecord.Kept.clean {w w' : World n} {r : FloodRecord n} (hr : r.Kept w)
    (h : w.CleanTo w') : r.Kept w' := by
  obtain ⟨hstart, c, hc, hpool, hfree⟩ := hr
  obtain ⟨es, hlog, _, hes⟩ := h.log
  refine ⟨by rw [hlog, List.length_append]; omega, c, hc, by rw [h.pool, hpool], ?_⟩
  rw [hlog, List.drop_append_of_le_length hstart]
  intro hm
  rcases List.mem_append.mp hm with hm | hm
  · exact hfree hm
  · obtain ⟨x, hx, hne⟩ := hes _ hm
    obtain rfl := Option.some.inj hx
    exact hne hpool

theorem World.CleanTo.freedOutside {w w' : World n} (h : w.CleanTo w')
    (hlog : ∀ x, .freeSeg x true ∉ w.log) : ∀ x, .freeSeg x true ∉ w'.log := by
  obtain ⟨es, hes, hseg, _⟩ := h.log
  intro x hx
  rw [hes] at hx
  rcases List.mem_append.mp hx with hx | hx
  · exact hlog x hx
  · exact hseg x hx

theorem TxSystem.Inv.setLcore {s : TxSystem k n} (h : s.Inv) {l : Fin k} {t : Lcore n}
    {received : List (Fin n)} (ht : t.Owned (s.elsewhere l + ↑(received.map some)) [])
    (hclean : s.world.CleanTo t.world) :
    TxSystem.Inv { s.setLcore l t with received := received } := by
  refine ⟨fun j => ?_, ?_, hclean.freedOutside h.log, fun r hr => (h.floods r hr).clean hclean⟩
  · by_cases hj : j = l
    · subst hj
      simpa [TxSystem.setLcore] using ht.room
    · simpa [TxSystem.setLcore, hj] using h.room j
  · rw [TxSystem.held_eq _ l]
    have howned := ht.owned
    rw [← setLcore_elsewhere s l t] at howned
    simpa [TxSystem.setLcore, TxSystem.elsewhere] using howned

theorem TxSystem.Inv.record {s : TxSystem k n} (h : s.Inv) {r : FloodRecord n}
    (hr : r.Kept s.world) : TxSystem.Inv { s with floods := s.floods ++ [r] } := by
  refine ⟨h.room, h.owned, h.log, fun r' hr' => ?_⟩
  rcases List.mem_append.mp hr' with hr' | hr'
  · exact h.floods r' hr'
  · rw [List.mem_singleton.mp hr']
    exact hr

theorem TxSystem.Inv.take {s : TxSystem k n} (h : s.Inv) (l : Fin k) {m : Fin n}
    (hm : m ∈ s.received) :
    (s.lcore l).Owned (some m ::ₘ (s.elsewhere l + ↑((s.received.erase m).map some))) [] := by
  have hperm : (↑(s.received.map some) : Multiset (Option (Fin n))) =
      some m ::ₘ ↑((s.received.erase m).map some) := by
    rw [Multiset.cons_coe, Multiset.coe_eq_coe]
    exact (List.perm_cons_erase hm).map some
  have hlcore := h.lcore l
  rw [hperm, Multiset.add_cons] at hlcore
  exact hlcore

theorem Lcore.Owned.lend {s : Lcore n} {rest : Multiset (Option (Fin n))} {m : Fin n}
    (h : s.Owned (some m ::ₘ rest) []) : s.Owned rest [m] := by
  have howned := h.owned
  rw [Multiset.add_cons] at howned
  exact ⟨h.room, howned.lend⟩

theorem Lcore.Owned.giveBack {s : Lcore n} {rest : Multiset (Option (Fin n))} {lent : List (Fin n)}
    (h : s.Owned rest lent) : s.Owned rest [] :=
  ⟨h.room, h.owned.mono (le_refl _) (List.nil_subset _)⟩

/-- A flood that keeps its headers leaves the lcore owning two headers over the flooded mbuf. -/
theorem pktFlood_owned {s t : Lcore n} {rest : Multiset (Option (Fin n))} {m : Fin n}
    (h : s.Owned (some m ::ₘ rest) [])
    (hkeeps : StepRun.Along (floodOne m) (fun t port => t.FloodKeeps port) s [0, 1])
    (hflood : pktFlood s m = .ok t) :
    t.Owned rest [] ∧ s.world.CleanTo t.world ∧
      FloodRecord.Kept ⟨m, s.world.log.length,
        (sends (t.world.log.drop s.world.log.length)).map fun (_, c, _) => c⟩ t.world := by
  obtain ⟨u, hu, hrun⟩ := StepRun.run_cons_ok.mp hflood
  obtain ⟨t', ht, hrun⟩ := StepRun.run_cons_ok.mp hrun
  obtain rfl := Except.ok.inj hrun
  obtain ⟨hkeeps0, hkeeps1⟩ := hkeeps
  obtain ⟨hkeeps1, _⟩ := hkeeps1 u hu
  obtain ⟨hu', hclean, hdr, view, es, hpool, hlog, hsends⟩ := h.lend.flood hkeeps0 hu
  obtain ⟨ht', hclean', _, _, es', _, hlog', hsends'⟩ := hu'.flood hkeeps1 ht
  have hall := hclean.trans hclean'
  have hdelta : t'.world.log.drop s.world.log.length = es ++ es' := by
    rw [hlog', hlog, List.append_assoc, List.drop_left]
  refine ⟨ht'.giveBack, hall, ?_, hdr, ?_, by rw [hall.pool, hpool], ?_⟩
  · rw [hlog', hlog]
    simp only [List.length_append]
    omega
  · rw [hdelta, sends_append, hsends]
    exact List.mem_cons_self
  · obtain ⟨fs, hfs, _, hfree⟩ := hall.log
    rw [hfs, List.drop_left]
    intro hm
    obtain ⟨x, hx, hne⟩ := hfree _ hm
    obtain rfl := Option.some.inj hx
    exact hne hpool

theorem TxSystem.Inv.receive {s : TxSystem k n} (h : s.Inv) (inPort : UInt8) {m : Fin n}
    {bytes : List UInt8} {segs : List (Fin n × List UInt8)}
    (hfill : s.Fillable (((m, bytes) :: segs).map Prod.fst)) :
    TxSystem.Inv { s with
      world := rxChain s.world inPort ((m, bytes) :: segs), received := m :: s.received } := by
  have hpooled : ∀ x ∈ ((m, bytes) :: segs).map Prod.fst, s.world.pooled x = true :=
    fun x hx => (hfill.2 x hx).1
  obtain ⟨howned, hclean⟩ : (rxChain s.world inPort ((m, bytes) :: segs)).Owned
      (some m ::ₘ s.held) [] ∧ s.world.CleanTo (rxChain s.world inPort ((m, bytes) :: segs)) :=
    h.owned.receive hfill.1 hpooled
  refine ⟨h.room, ?_, hclean.freedOutside h.log, fun r hr => (h.floods r hr).clean hclean⟩
  rw [TxSystem.held, rxChain_inFlight, List.map_cons, ← Multiset.cons_coe, Multiset.add_cons]
  exact howned

theorem TxSystem.Inv.complete {s : TxSystem k n} (h : s.Inv) {i : Nat} {r : Option (Fin n)}
    (hi : s.world.inFlight[i]? = some r)
    (hkeeps : ∀ x, s.world.inFlight[i]? = some (some x) → (s.world.mbuf x).pool ≠ .header) :
    TxSystem.Inv { s with
      world := rtePktmbufFree { s.world with inFlight := s.world.inFlight.eraseIdx i } r } := by
  obtain ⟨hlt, hr⟩ := List.getElem?_eq_some_iff.mp hi
  have hperm : (↑s.world.inFlight : Multiset (Option (Fin n))) =
      r ::ₘ ↑(s.world.inFlight.eraseIdx i) := by
    rw [Multiset.cons_coe, Multiset.coe_eq_coe, ← hr]
    exact (List.getElem_cons_eraseIdx_perm hlt).symm
  have howned := h.owned
  rw [TxSystem.held, hperm, Multiset.cons_add, Multiset.cons_add] at howned
  cases r with
  | none => exact absurd (Multiset.mem_cons_self _ _) howned.notNull
  | some x =>
    have hlanded : World.Owned { s.world with inFlight := s.world.inFlight.eraseIdx i }
        (some x ::ₘ (↑(s.world.inFlight.eraseIdx i) + (∑ l, (s.qconf l).queued) +
          ↑(s.received.map some))) [] := howned.congr rfl rfl
    obtain ⟨hfree, hfreed⟩ := hlanded.free (hkeeps x hi)
    have hclean : s.world.CleanTo
        (rtePktmbufFree { s.world with inFlight := s.world.inFlight.eraseIdx i } (some x)) :=
      ⟨hfreed.pool, hfreed.log⟩
    refine ⟨h.room, ?_, hclean.freedOutside h.log, fun r hr => (h.floods r hr).clean hclean⟩
    have hflight := (free_freedTo { s.world with inFlight := s.world.inFlight.eraseIdx i }
      (some x)).inFlight
    rw [TxSystem.held, hflight]
    exact hfree

theorem TxSystem.Inv.step {s t : TxSystem k n} {a : TxStep k n} (h : s.Inv)
    (hkeeps : a.KeepsHeaders s) (hstep : s.step a = .ok t) : t.Inv := by
  cases a with
  | receive inPort segs =>
    cases segs with
    | nil => exact Except.ok.inj hstep ▸ h
    | cons seg segs =>
      rw [TxSystem.step] at hstep
      split at hstep
      next hfill => exact Except.ok.inj hstep ▸ h.receive inPort hfill
      next => exact Except.ok.inj hstep ▸ h
  | flood l m =>
    rw [TxSystem.step] at hstep
    split at hstep
    next hm =>
      obtain ⟨u, hu, hstep⟩ := StepRun.bind_eq_ok.mp hstep
      obtain ⟨howned, hclean, hkept⟩ := pktFlood_owned (h.take l hm) (hkeeps hm) hu
      exact Except.ok.inj hstep ▸ (h.setLcore howned hclean).record hkept
    next => exact Except.ok.inj hstep ▸ h
  | sendSingle l m port =>
    rw [TxSystem.step] at hstep
    split at hstep
    next hm =>
      obtain ⟨u, hu, hstep⟩ := StepRun.bind_eq_ok.mp hstep
      obtain ⟨howned, hclean⟩ := (h.take l hm).send (hkeeps hm) hu
      exact Except.ok.inj hstep ▸ h.setLcore howned hclean
    next => exact Except.ok.inj hstep ▸ h
  | sendBurst l port =>
    obtain ⟨u, hu, hstep⟩ := StepRun.bind_eq_ok.mp hstep
    obtain ⟨howned, hclean⟩ := (h.lcore l).sendBurst hkeeps hu
    exact Except.ok.inj hstep ▸ h.setLcore howned hclean
  | complete i =>
    cases hi : s.world.inFlight[i]? with
    | none =>
      simp only [TxSystem.step, hi, Except.ok.injEq] at hstep
      exact hstep ▸ h
    | some r =>
      simp only [TxSystem.step, hi, Except.ok.injEq] at hstep
      exact hstep ▸ h.complete hi hkeeps

theorem TxSystem.inv_boot (pools : Fin n → Pool) (pick : Nat → Option (Fin n))
    (txRoom : Nat → Nat) : (TxSystem.boot k pools pick txRoom).Inv := by
  have hheld : (TxSystem.boot k pools pick txRoom).held = 0 := by
    have hqueued : (LcoreQueueConf.zero n).queued = 0 :=
      Finset.sum_eq_zero fun p _ => by
        rw [entries_of_len_zero rfl, Multiset.coe_nil]
    simp [TxSystem.held, TxSystem.boot, hqueued, initEal]
  refine ⟨fun l p => len_lt_of_zero rfl, ?_, by simp [TxSystem.boot, initEal], by simp [TxSystem.boot]⟩
  rw [hheld]
  exact ⟨Multiset.nodup_zero, Multiset.notMem_zero _, by simp, fun _ => rfl, by simp, by simp⟩

theorem mem_held_of_pending {s : TxSystem k n} {h : Fin n} (hp : s.Pending h) : some h ∈ s.held := by
  rcases hp with hp | ⟨l, p, hp⟩
  · exact Multiset.mem_add.mpr (Or.inl (Multiset.mem_add.mpr (Or.inl hp)))
  · rw [s.held_eq l, (s.qconf l).queued_eq p]
    exact Multiset.mem_add.mpr (Or.inl (Multiset.mem_add.mpr (Or.inr
      (Multiset.mem_add.mpr (Or.inl hp)))))

theorem TxSystem.Inv.sound {s : TxSystem k n} (h : s.Inv) : s.Sound := by
  refine ⟨h.log, fun r hr x hx => ?_, fun r hr hfreed => ?_⟩
  · obtain ⟨segs, hchain, hlive⟩ := h.owned.chain r (Or.inl (mem_held_of_pending hr))
    obtain ⟨rest, rfl, hrest⟩ := hchain.head
    exact (hlive x (List.mem_cons_of_mem r (hrest.reaches_mem hx))).pooled
  · obtain ⟨_, c, hc, _, hfree⟩ := h.floods r hr
    exact absurd (hfreed c hc) hfree

/-- In every run whose floods get their headers and which frees no header, ownership is sound in
every state. -/
theorem txSystem_sound {pools : Fin n → Pool} {pick : Nat → Option (Fin n)} {txRoom : Nat → Nat}
    {steps : List (TxStep k n)} {s : TxSystem k n}
    (hkeeps : StepRun.Along TxSystem.step (fun s a => a.KeepsHeaders s)
      (TxSystem.boot k pools pick txRoom) steps)
    (hrun : StepRun.run TxSystem.step (TxSystem.boot k pools pick txRoom) steps = .ok s) :
    s.Sound :=
  (StepRun.run_invariant (fun _ _ _ h hk hs => TxSystem.Inv.step h hk hs)
    (TxSystem.inv_boot pools pick txRoom) hkeeps hrun).sound

/-- Mbufs 1 and 2 are headers, the others for frames, and the driver takes every burst. -/
def elevenMbufs : TxSystem 1 11 :=
  .boot 1 (fun m => if m.val = 1 ∨ m.val = 2 then .header else .packet)
    (fun i => (List.finRange 11)[i + 1]?) fun _ => 32

/-- A flood, whose first copy leaves, and a frame for one port that leaves and is freed. -/
def floodAndUnicast (lcoreId : Fin 1) : List (TxStep 1 11) :=
  [.receive 0 [(0, [0xAB])], .flood lcoreId 0, .sendBurst lcoreId 0, .receive 1 [(3, [0xCD])],
   .sendSingle lcoreId 3 5, .sendBurst lcoreId 5, .complete 1]

theorem txSystem_sound_floodAndUnicast :
    ∃ s, StepRun.run TxSystem.step elevenMbufs (floodAndUnicast 0) = .ok s ∧
      s.world.inFlight = [some 1] ∧ s.world.pooled 3 = true ∧ s.Sound := by
  have hrun : (match StepRun.run TxSystem.step elevenMbufs (floodAndUnicast 0) with
      | .ok s => decide (s.world.inFlight = [some 1] ∧ s.world.pooled 3 = true)
      | .error _ => false) = true := by decide +kernel
  split at hrun
  next s hs =>
    obtain ⟨hflight, hfreed⟩ := of_decide_eq_true hrun
    exact ⟨s, hs, hflight, hfreed, txSystem_sound
      (show StepRun.Along TxSystem.step (fun s a => a.KeepsHeaders s) elevenMbufs
        (floodAndUnicast 0) by decide +kernel) hs⟩
  next => cases hrun

def twoHeaders : TxSystem 1 3 :=
  .boot 1 (fun m => if m.val = 0 then .packet else .header) (fun i => (List.finRange 3)[i + 1]?)
    fun _ => 1

/-- The copy for port 0 leaves and is freed by the driver; the copy for port 1 is still queued and
linked to the flooded mbuf. -/
theorem txSystem_freedLinked :
    ¬ ∀ (steps : List (TxStep 1 3)) (s : TxSystem 1 3),
      StepRun.run TxSystem.step twoHeaders steps = .ok s → s.Sound := by
  intro h
  have hrun : (match StepRun.run TxSystem.step twoHeaders
        [.receive 0 [(0, [0xAB])], .flood 0 0, .sendBurst 0 0, .complete 0] with
      | .ok s => decide (some 2 ∈ ((s.qconf 0).txMbufs ⟨1, by decide⟩).entries ∧
          s.world.next 2 = some 0 ∧ s.world.pooled 0 = true)
      | .error _ => false) = true := by decide +kernel
  split at hrun
  next s hs =>
    obtain ⟨hqueued, hnext, hpooled⟩ := of_decide_eq_true hrun
    have houtside := (h _ s hs).linkedOutside 2 (Or.inr ⟨0, _, hqueued⟩) 0 (.single hnext)
    rw [hpooled] at houtside
    cases houtside
  next => cases hrun

end LearningSwitch
