import LearningSwitch.L2Switch

namespace LearningSwitch

structure Arrival (n : Nat) where
  world : World n
  m : Fin n

variable {n : Nat}

def Arrival.src (a : Arrival n) : EtherAddr := a.world.sAddr a.m

def Arrival.dst (a : Arrival n) : EtherAddr := a.world.dAddr a.m

def Arrival.inPort (a : Arrival n) : UInt8 := (a.world.mbuf a.m).pkt.inPort

/-- The purpose of the switch: which port each station was first heard on. -/
abbrev StationTable := EtherAddr → Option UInt8

def StationTable.learn (t : StationTable) (src : EtherAddr) (inPort : UInt8) : StationTable :=
  if src = broadcastAddr then t else FirstWriter.insertNew t (src, inPort)

def StationTable.route (t : StationTable) (dst : EtherAddr) : Except Fault UInt32 :=
  if dst = broadcastAddr then .ok floodPort
  else
    match t dst with
    | none => .error .endDeref
    | some port => .ok port.toUInt32

/-- The map holds the stations of `t` under the padding that `pad` gives each address. -/
def L2Switch.Implements (pad : EtherAddr → UInt16) (l2 : L2Switch) (t : StationTable) : Prop :=
  ∀ a, l2.l2AddrMap (asInt a (pad a)) = (t a).map fun port => port.toUInt32.toUInt64

theorem L2Switch.implements_empty (pad : EtherAddr → UInt16) :
    L2Switch.empty.Implements pad fun _ => none := fun _ => rfl

theorem asInt_pad_eq_l2Broadcast {pad : EtherAddr → UInt16} (hpad : pad broadcastAddr = 0)
    {a : EtherAddr} : asInt a (pad a) = l2Broadcast ↔ a = broadcastAddr := by
  rw [asInt_eq_l2Broadcast]
  constructor
  · intro h
    exact h.1
  · intro h
    exact ⟨h, by rw [h, hpad]⟩

theorem L2Switch.Implements.learn {pad : EtherAddr → UInt16} {l2 : L2Switch} {t : StationTable}
    (h : l2.Implements pad t) (hpad : pad broadcastAddr = 0) (a : Arrival n) :
    (componentLearn l2 a.world a.m (pad a.src)).Implements pad (t.learn a.src a.inPort) := by
  by_cases hb : a.src = broadcastAddr
  · have hkey : asInt (a.world.sAddr a.m) (pad a.src) = l2Broadcast :=
      (asInt_pad_eq_l2Broadcast hpad).mpr hb
    rw [componentLearn_broadcast l2 hkey, StationTable.learn, if_pos hb]
    exact h
  · have hkey : asInt (a.world.sAddr a.m) (pad a.src) ≠ l2Broadcast :=
      fun he => hb ((asInt_pad_eq_l2Broadcast hpad).mp he)
    intro b
    rw [componentLearn_insertNew l2 hkey, StationTable.learn, if_neg hb]
    by_cases hab : b = a.src
    · subst hab
      show FirstWriter.insertNew l2.l2AddrMap (asInt a.src (pad a.src), _) (asInt a.src (pad a.src)) = _
      rw [FirstWriter.insertNew_self, h, FirstWriter.insertNew_self]
      cases t a.src <;> rfl
    · have hne : asInt b (pad b) ≠ asInt (a.world.sAddr a.m) (pad a.src) :=
        fun he => hab (asInt_inj.mp he).1
      rw [FirstWriter.insertNew_ne _ _ hne, FirstWriter.insertNew_ne _ _ hab]
      exact h b

theorem L2Switch.Implements.find {pad : EtherAddr → UInt16} {l2 : L2Switch} {t : StationTable}
    (h : l2.Implements pad t) (hpad : pad broadcastAddr = 0) (a : Arrival n) :
    l2.find a.world a.m (pad a.dst) = t.route a.dst := by
  rw [StationTable.route]
  by_cases hb : a.dst = broadcastAddr
  · have hkey : asInt (a.world.dAddr a.m) (pad a.dst) = l2Broadcast :=
      (asInt_pad_eq_l2Broadcast hpad).mpr hb
    rw [find_broadcast l2 hkey, if_pos hb]
  · have hkey : asInt (a.world.dAddr a.m) (pad a.dst) ≠ l2Broadcast :=
      fun he => hb ((asInt_pad_eq_l2Broadcast hpad).mp he)
    have hmap : l2.l2AddrMap (asInt (a.world.dAddr a.m) (pad a.dst)) = _ := h a.dst
    rw [find_of_ne l2 hkey, if_neg hb, hmap]
    cases t a.dst <;> simp

def heard (as : List (Arrival n)) : List (EtherAddr × UInt8) :=
  (as.filter fun a => a.src ≠ broadcastAddr).map fun a => (a.src, a.inPort)

def StationTable.learnAll (t : StationTable) (as : List (Arrival n)) : StationTable :=
  as.foldl (fun t a => t.learn a.src a.inPort) t

theorem StationTable.learnAll_eq (t : StationTable) (as : List (Arrival n)) (a : EtherAddr) :
    t.learnAll as a = (t a).or (FirstWriter.first (heard as) a) := by
  rw [← FirstWriter.foldl_insertNew]
  unfold StationTable.learnAll heard
  induction as generalizing t with
  | nil => rfl
  | cons b as ih =>
    rw [List.foldl_cons, ih]
    by_cases hb : b.src = broadcastAddr <;> simp [StationTable.learn, hb]

def learnAll (as : List (Arrival n)) : L2Switch :=
  as.foldl (fun l2 a => componentLearn l2 a.world a.m 0) L2Switch.empty

theorem L2Switch.Implements.learnAll {pad : EtherAddr → UInt16} {l2 : L2Switch}
    {t : StationTable} (h : l2.Implements pad t) (hpad : pad broadcastAddr = 0)
    (as : List (Arrival n)) :
    (as.foldl (fun l2 a => componentLearn l2 a.world a.m (pad a.src)) l2).Implements pad
      (t.learnAll as) := by
  induction as generalizing l2 t with
  | nil => exact h
  | cons a as ih =>
    rw [List.foldl_cons, StationTable.learnAll, List.foldl_cons]
    exact ih (h.learn hpad a)

/-- After any run the lookup is a read of the first frame heard from each station. -/
theorem find_learnAll (as : List (Arrival n)) (a : Arrival n) :
    (learnAll as).find a.world a.m 0 =
      StationTable.route (FirstWriter.first (heard as)) a.dst := by
  have hpad : (fun _ => 0 : EtherAddr → UInt16) broadcastAddr = 0 := rfl
  have himpl := (L2Switch.implements_empty fun _ => 0).learnAll hpad as
  have hfind := himpl.find hpad a
  have htable : StationTable.learnAll (fun _ => none) as = FirstWriter.first (heard as) := by
    funext b
    rw [StationTable.learnAll_eq, Option.none_or]
  rw [htable] at hfind
  exact hfind

theorem mem_heard {as : List (Arrival n)} {e : EtherAddr × UInt8} :
    e ∈ heard as ↔ ∃ b ∈ as, b.src ≠ broadcastAddr ∧ e = (b.src, b.inPort) := by
  simp only [heard, List.mem_map, List.mem_filter, decide_eq_true_eq]
  constructor
  · intro h
    obtain ⟨b, ⟨hb, hsrc⟩, rfl⟩ := h
    exact ⟨b, hb, hsrc, rfl⟩
  · intro h
    obtain ⟨b, hb, hsrc, rfl⟩ := h
    exact ⟨b, ⟨hb, hsrc⟩, rfl⟩

theorem first_heard {as : List (Arrival n)} {src : EtherAddr} (hb : src ≠ broadcastAddr)
    (hsrc : ∃ b ∈ as, b.src = src) :
    ∃ pre b post, as = pre ++ b :: post ∧ b.src = src ∧ (∀ c ∈ pre, c.src ≠ src) ∧
      FirstWriter.first (heard as) src = some b.inPort := by
  induction as with
  | nil => simp at hsrc
  | cons c as ih =>
    by_cases hc : c.src = src
    · refine ⟨[], c, as, rfl, hc, by simp, ?_⟩
      simp [FirstWriter.first, heard, hc, hb]
    · obtain ⟨d, hd, hdsrc⟩ := hsrc
      have htail : ∃ b ∈ as, b.src = src := by
        rcases List.mem_cons.mp hd with rfl | hd
        · exact absurd hdsrc hc
        · exact ⟨d, hd, hdsrc⟩
      obtain ⟨pre, b, post, rfl, hsrc', hpre, hfirst⟩ := ih htail
      refine ⟨c :: pre, b, post, rfl, hsrc', fun e he => ?_, ?_⟩
      · rcases List.mem_cons.mp he with rfl | he
        · exact hc
        · exact hpre e he
      · rw [← hfirst]
        by_cases hcb : c.src = broadcastAddr <;> simp [FirstWriter.first, heard, hcb, hc]

/-- The lookup is defined, floods what it must and else answers with a port where the station was
heard, exactly when the destination is the broadcast address or was heard before. -/
theorem find_defined_iff (as : List (Arrival n)) (a : Arrival n) :
    (∃ port, (learnAll as).find a.world a.m 0 = .ok port ∧
      (a.dst = broadcastAddr ∨ (∀ b ∈ as, b.src ≠ a.dst) → port = floodPort) ∧
      (¬ (a.dst = broadcastAddr ∨ ∀ b ∈ as, b.src ≠ a.dst) →
        ∃ b ∈ as, b.src = a.dst ∧ port = b.inPort.toUInt32)) ↔
      a.dst = broadcastAddr ∨ ∃ b ∈ as, b.src = a.dst := by
  rw [find_learnAll, StationTable.route]
  by_cases hb : a.dst = broadcastAddr
  · simp [hb]
  · rw [if_neg hb]
    by_cases hsrc : ∃ b ∈ as, b.src = a.dst
    · obtain ⟨pre, b, post, rfl, hbsrc, _, hfirst⟩ := first_heard hb hsrc
      have hmem : b ∈ pre ++ b :: post := by simp
      rw [hfirst]
      refine ⟨fun _ => Or.inr hsrc, fun _ => ⟨_, rfl, fun h => ?_, fun _ => ⟨b, hmem, hbsrc, rfl⟩⟩⟩
      rcases h with h | h
      · exact absurd h hb
      · exact absurd hbsrc (h b hmem)
    · have hfirst : FirstWriter.first (heard as) a.dst = none := by
        rw [FirstWriter.first_eq_none]
        intro e he hk
        obtain ⟨b, hbm, _, rfl⟩ := mem_heard.mp he
        exact hsrc ⟨b, hbm, hk⟩
      rw [hfirst]
      simp [hb, hsrc]

/-- A lookup returns the port of the first frame that its destination ever sent. -/
theorem find_first_heard (as : List (Arrival n)) (a : Arrival n) (hb : a.dst ≠ broadcastAddr)
    (hsrc : ∃ b ∈ as, b.src = a.dst) :
    ∃ pre b post, as = pre ++ b :: post ∧ b.src = a.dst ∧ (∀ c ∈ pre, c.src ≠ a.dst) ∧
      (learnAll as).find a.world a.m 0 = .ok b.inPort.toUInt32 := by
  obtain ⟨pre, b, post, has, hbsrc, hpre, hfirst⟩ := first_heard hb hsrc
  refine ⟨pre, b, post, has, hbsrc, hpre, ?_⟩
  rw [find_learnAll, StationTable.route, if_neg hb, hfirst]

def frameFrom (src dst : EtherAddr) (inPort : UInt8) : Arrival 1 where
  world := rxChain (initEal (fun _ => .packet) (fun _ => none) fun _ => 0) inPort
    [(Fin.last 0, List.ofFn dst ++ List.ofFn src ++ 0x08 :: List.replicate 21 0)]
  m := Fin.last 0

def station (k : UInt8) : EtherAddr := fun i => if i = 5 then k else 2

theorem find_first_heard_station :
    ∃ pre b post, [frameFrom (station 1) (station 2) 3, frameFrom (station 1) (station 2) 5] =
      pre ++ b :: post ∧
      b.src = (frameFrom (station 2) (station 1) 4).dst ∧
      (∀ c ∈ pre, c.src ≠ (frameFrom (station 2) (station 1) 4).dst) ∧
      (learnAll [frameFrom (station 1) (station 2) 3, frameFrom (station 1) (station 2) 5]).find
        (frameFrom (station 2) (station 1) 4).world (frameFrom (station 2) (station 1) 4).m 0 =
          .ok b.inPort.toUInt32 :=
  find_first_heard _ _ (by decide) (by decide)

/-- A station that moved from port 1 to port 2 is still looked up on port 1. -/
theorem find_stationMoved :
    ¬ ∀ (pre : List (Arrival 1)) (b : Arrival 1) (post : List (Arrival 1)) (a : Arrival 1),
      a.dst ≠ broadcastAddr → b.src = a.dst → (∀ c ∈ post, c.src ≠ a.dst) →
      (learnAll (pre ++ b :: post)).find a.world a.m 0 = .ok b.inPort.toUInt32 := by
  intro h
  have hmoved := h [frameFrom (station 1) (station 2) 1] (frameFrom (station 1) (station 2) 2) []
    (frameFrom (station 2) (station 1) 4) (by decide) (by decide) (by decide)
  exact absurd hmoved (by decide)

/-- With an empty table the lookup of a station reads through `end()`. -/
theorem find_unknownUnicast :
    ¬ ∀ (as : List (Arrival 1)) (a : Arrival 1), ∃ port,
      (learnAll as).find a.world a.m 0 = .ok port ∧
      (a.dst = broadcastAddr ∨ (∀ b ∈ as, b.src ≠ a.dst) → port = floodPort) ∧
      (¬ (a.dst = broadcastAddr ∨ ∀ b ∈ as, b.src ≠ a.dst) →
        ∃ b ∈ as, b.src = a.dst ∧ port = b.inPort.toUInt32) := by
  intro h
  obtain ⟨port, hport, _⟩ := h [] (frameFrom (station 1) (station 2) 1)
  have hfault : (learnAll ([] : List (Arrival 1))).find (frameFrom (station 1) (station 2) 1).world
      (frameFrom (station 1) (station 2) 1).m 0 = .error .endDeref := rfl
  rw [hfault] at hport
  cases hport

end LearningSwitch
