import LearningSwitch.EthanePolicy

namespace LearningSwitch

variable {n : Nat}

/-- `ether_hdr::ether_type` in host byte order. -/
def World.etherType (w : World n) (m : Fin n) : UInt16 :=
  (w.byte m 12).toUInt16 <<< (8 : UInt16) ||| (w.byte m 13).toUInt16

def etherTypeIPv4 : UInt16 := 0x0800

/-- The class that `Classify::component` pushes, as a function of the packet alone. -/
def Ethane.classOf (e : Ethane) (ls : ExactLocals srcMatch [dstMatch]) (packet : Packet) :
    Except Fault UInt32 := do
  match ← e.classifier.find ls packet with
  | some slot =>
    match (e.classifier.actionTable slot).callback with
    | none => .error .nullCall
    | some .actionClassifyForbidden => .ok classForbid
  | none => .ok classAllow

theorem Ethane.classify_eq_classOf (e : Ethane) (ls : ExactLocals srcMatch [dstMatch])
    (w : World n) (m : Fin n) : e.classify ls w m =
      e.classOf ls (w.byte m) >>= fun x => .ok (.continue_, pushHeader w m x) := by
  unfold Ethane.classify Ethane.classOf
  cases e.classifier.find ls (w.byte m) with
  | error f => rfl
  | ok found =>
    cases found with
    | none => rfl
    | some slot =>
      simp only [StepRun.ok_bind]
      cases (e.classifier.actionTable slot).callback with
      | none => rfl
      | some cb => cases cb; rfl

theorem Ethane.classifyEnforce_eq_classOf (e : Ethane) (ls : ExactLocals srcMatch [dstMatch])
    (w : World n) (m : Fin n) : e.classifyEnforce ls w m =
      e.classOf ls (w.byte m) >>= fun x => .ok (enforce (pushHeader w m x) m) := by
  rw [Ethane.classifyEnforce, e.classify_eq_classOf]
  cases e.classOf ls (w.byte m) <;> rfl

theorem enforce_fst (w : World n) (m : Fin n) (x : UInt32) :
    (enforce (pushHeader w m x) m).1 = if x = classAllow then .continue_ else .stop := by
  rw [enforce, pushHeader_read32]
  split
  next => rfl
  next => split <;> rfl

/-- Classification reads the eight address bytes and nothing else. -/
theorem Ethane.classOf_congr (e : Ethane) {p q : Packet}
    (h : ∀ i, 26 ≤ i → i < 34 → p i = q i) (ls ls' : ExactLocals srcMatch [dstMatch]) :
    e.classOf ls p = e.classOf ls' q := by
  have hfields : ∀ M ∈ [srcMatch, dstMatch], M.field p = M.field q := by
    intro M hM
    have hrange : 26 ≤ M.offsetT ∧ M.offsetT + M.sizeT ≤ 34 := by
      rcases List.mem_pair.mp hM with rfl | rfl <;> decide
    funext i
    exact h (M.offsetT + i) (by omega) (by omega)
  rw [Ethane.classOf, Ethane.classOf, e.classifier.find_congr (by simp) hfields ls ls']

theorem Ethane.verdict_congr (e : Ethane) {w w' : World n} {m m' : Fin n}
    (h : ∀ i, 26 ≤ i → i < 34 → w.byte m i = w'.byte m' i)
    (ls ls' : ExactLocals srcMatch [dstMatch]) :
    (e.classifyEnforce ls w m).map Prod.fst = (e.classifyEnforce ls' w' m').map Prod.fst := by
  rw [e.classifyEnforce_eq_classOf, e.classifyEnforce_eq_classOf, e.classOf_congr h ls ls']
  cases e.classOf ls' (w'.byte m') with
  | error f => rw [StepRun.error_bind, StepRun.error_bind]
  | ok x =>
    show Except.ok (enforce (pushHeader w m x) m).1 = Except.ok (enforce (pushHeader w' m' x) m').1
    rw [enforce_fst, enforce_fst]

theorem Ethane.Forbids.classifyEnforce_ok {e : Ethane} {pairs : List AddressPair}
    (h : e.Forbids pairs) {ls : ExactLocals srcMatch [dstMatch]} {w w' : World n} {m : Fin n}
    {verdict : Pipeline} (hrun : e.classifyEnforce ls w m = .ok (verdict, w')) :
    (verdict = .stop ↔ ∃ pair ∈ pairs, Carries w m pair) ∧
      (verdict = .stop → w' = rtePktmbufFree (pushHeader w m classForbid) (some m)) := by
  obtain ⟨r, hclass, hrest⟩ := StepRun.bind_eq_ok.mp hrun
  obtain rfl := h.classify_ok hclass
  have henforce := Except.ok.inj hrest
  by_cases hc : ∃ pair ∈ pairs, Carries w m pair
  · rw [if_pos hc, enforce_forbid] at henforce
    cases henforce
    simp [hc]
  · rw [if_neg hc, enforce_allow] at henforce
    cases henforce
    simp [hc]

/-- Whatever pairs are installed, a frame of any EtherType is freed and stopped when its bytes 26
to 33 spell one of them and passes when they do not. -/
theorem classifyEnforce_anyEtherType {steps : List RuleStep}
    (hcb : ∀ slot < (addedPairs steps).length,
      ((steps.foldl Ethane.apply Ethane.empty).classifier.actionTable slot).callback =
        some .actionClassifyForbidden)
    (ls : ExactLocals srcMatch [dstMatch]) (w : World n) (m : Fin n) :
    (∀ verdict w',
      (steps.foldl Ethane.apply Ethane.empty).classifyEnforce ls w m = .ok (verdict, w') →
        (verdict = .stop ↔ ∃ pair ∈ addedPairs steps, Carries w m pair) ∧
        (verdict = .stop → ∃ es, w'.log = w.log ++ es ∧ freed es = [some m])) ∧
    ((addedPairs steps).length ≤ maxTableSize → ∃ verdict w',
      (steps.foldl Ethane.apply Ethane.empty).classifyEnforce ls w m = .ok (verdict, w')) ∧
    ∀ ls' (w' : World n) (m' : Fin n), (∀ i, 26 ≤ i → i < 34 → w.byte m i = w'.byte m' i) →
      ((steps.foldl Ethane.apply Ethane.empty).classifyEnforce ls w m).map Prod.fst =
        ((steps.foldl Ethane.apply Ethane.empty).classifyEnforce ls' w' m').map Prod.fst := by
  have hforbids := foldl_apply_forbids hcb
  refine ⟨fun verdict w' hrun => ?_, fun hlen => ?_, fun ls' w' m' h => ?_⟩
  · obtain ⟨hiff, hfree⟩ := hforbids.classifyEnforce_ok hrun
    refine ⟨hiff, fun hstop => ?_⟩
    obtain ⟨es, _, hlog, hfreed⟩ := free_log (pushHeader w m classForbid) (some m)
    refine ⟨.free (some m) :: es, ?_, hfreed⟩
    rw [hfree hstop, hlog, pushHeader_log]
  · exact ⟨_, _, hforbids.classifyEnforce_eq hlen ls w m⟩
  · exact Ethane.verdict_congr _ h ls ls'

/-- An ARP frame whose addresses spell the pair of `component_ethane_init`. -/
def arpFrame : World 1 :=
  rxChain (initEal (fun _ => .packet) (fun _ => none) fun _ => 0) 0
    [(Fin.last 0, List.replicate 12 0 ++ [0x08, 0x06] ++ List.replicate 12 0 ++
      [10, 10, 10, 11, 10, 10, 10, 12])]

/-- The accesses of `component_ethane_init`. -/
def initSteps : List RuleStep :=
  [.addRule initPair, .setType 0 actionClassify, .setCallback 0 .actionClassifyForbidden]

theorem initSteps_callback : ∀ slot < (addedPairs initSteps).length,
    ((initSteps.foldl Ethane.apply Ethane.empty).classifier.actionTable slot).callback =
      some .actionClassifyForbidden := by
  intro slot hs
  obtain rfl : slot = 0 := Nat.lt_one_iff.mp hs
  rfl

theorem classifyEnforce_anyEtherType_arp :
    arpFrame.etherType 0 = 0x0806 ∧ ∃ w', (initSteps.foldl Ethane.apply Ethane.empty).classifyEnforce
      (fun _ => 0, fun _ => 0) arpFrame 0 = .ok (.stop, w') := by
  obtain ⟨hverdict, hruns, _⟩ :=
    classifyEnforce_anyEtherType initSteps_callback (fun _ => 0, fun _ => 0) arpFrame 0
  obtain ⟨verdict, w', hrun⟩ := hruns (by decide)
  obtain rfl := (hverdict verdict w' hrun).1.mpr ⟨initPair, List.mem_singleton.mpr rfl, by decide⟩
  exact ⟨by decide, w', hrun⟩

/-- The pair of `component_ethane_init` drops an ARP frame. -/
theorem not_onlyIPv4 :
    ¬∀ (steps : List RuleStep) (ls : ExactLocals srcMatch [dstMatch]) (w : World 1) (m : Fin 1),
      (∀ slot < (addedPairs steps).length,
        ((steps.foldl Ethane.apply Ethane.empty).classifier.actionTable slot).callback =
          some .actionClassifyForbidden) →
      w.WellFormed m → 34 ≤ (w.mbuf m).pkt.dataLen.toNat → 4 ≤ (w.mbuf m).pkt.data →
      ∀ w', (steps.foldl Ethane.apply Ethane.empty).classifyEnforce ls w m = .ok (.stop, w') →
        w.etherType m = etherTypeIPv4 ∧ ∃ pair ∈ addedPairs steps, Carries w m pair := by
  intro h
  have hforbids := foldl_apply_forbids initSteps_callback
  have hcarry : ∃ pair ∈ addedPairs initSteps, Carries arpFrame 0 pair :=
    ⟨initPair, List.mem_singleton.mpr rfl, by decide⟩
  have hrun (ls) : (initSteps.foldl Ethane.apply Ethane.empty).classifyEnforce ls arpFrame 0 =
      .ok (.stop, rtePktmbufFree (pushHeader arpFrame 0 classForbid) (some 0)) := by
    rw [hforbids.classifyEnforce_eq (by decide), if_pos hcarry, enforce_forbid]
  have hwell : arpFrame.WellFormed 0 := by unfold World.WellFormed; decide
  have htype := (h initSteps (fun _ => 0, fun _ => 0) arpFrame 0 initSteps_callback hwell (by decide)
    (by decide) _ (hrun _)).1
  exact absurd htype (by decide)

end LearningSwitch
