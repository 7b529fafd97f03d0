import LearningSwitch.Ethane

namespace LearningSwitch

variable {n : Nat}

theorem pushHeader_log (w : World n) (m : Fin n) (x : UInt32) : (pushHeader w m x).log = w.log := by
  unfold pushHeader rtePktmbufPrepend
  split <;> rfl

theorem enforce_allow (w : World n) (m : Fin n) :
    enforce (pushHeader w m classAllow) m =
      (.continue_, (rtePktmbufAdj (pushHeader w m classAllow) m 4).2) := by
  rw [enforce, pushHeader_read32]
  exact if_pos rfl

theorem enforce_forbid (w : World n) (m : Fin n) :
    enforce (pushHeader w m classForbid) m =
      (.stop, rtePktmbufFree (pushHeader w m classForbid) (some m)) := by
  have hne : ¬ classForbid = classAllow := by decide
  rw [enforce, pushHeader_read32]
  simp only [if_neg hne, if_true]

theorem Ethane.Forbids.classifyEnforce_eq {e : Ethane} {pairs : List AddressPair}
    (h : e.Forbids pairs) (hlen : pairs.length ≤ maxTableSize)
    (ls : ExactLocals srcMatch [dstMatch]) (w : World n) (m : Fin n) :
    e.classifyEnforce ls w m = .ok (enforce (pushHeader w m
      (if ∃ pair ∈ pairs, Carries w m pair then classForbid else classAllow)) m) := by
  rw [Ethane.classifyEnforce, h.classify hlen, StepRun.ok_bind]

theorem Ethane.Forbids.classifyEnforce {e : Ethane} {pairs : List AddressPair}
    (h : e.Forbids pairs) (hlen : pairs.length ≤ maxTableSize)
    (ls : ExactLocals srcMatch [dstMatch]) {w : World n} {m : Fin n} (hw : w.WellFormed m)
    (hd : 4 ≤ (w.mbuf m).pkt.data) :
    (∃ pair ∈ pairs, Carries w m pair) ∧ e.classifyEnforce ls w m =
        .ok (.stop, rtePktmbufFree (pushHeader w m classForbid) (some m)) ∨
      (¬ ∃ pair ∈ pairs, Carries w m pair) ∧
        ∃ w', e.classifyEnforce ls w m = .ok (.continue_, w') ∧ w.SameButHeadroom m w' := by
  by_cases hc : ∃ pair ∈ pairs, Carries w m pair
  · left
    refine ⟨hc, ?_⟩
    rw [h.classifyEnforce_eq hlen, if_pos hc, enforce_forbid]
  · right
    refine ⟨hc, _, ?_, adj_pushHeader hw hd classAllow⟩
    rw [h.classifyEnforce_eq hlen, if_neg hc, enforce_allow]

theorem foldl_apply_forbids {steps : List RuleStep}
    (hcb : ∀ slot < (addedPairs steps).length,
      ((steps.foldl Ethane.apply Ethane.empty).classifier.actionTable slot).callback =
        some .actionClassifyForbidden) :
    (steps.foldl Ethane.apply Ethane.empty).Forbids (addedPairs steps) where
  installed := foldl_apply_installed Classifier.installed_empty steps
  callback := hcb

/-- Any way of adding rules so that every action forbids: frames that carry an installed pair are
stopped and freed once, all others pass with nothing but their headroom touched, and the class is
always known. -/
theorem classifyEnforce_policy {steps : List RuleStep}
    (hlen : (addedPairs steps).length < maxTableSize)
    (hcb : ∀ slot < (addedPairs steps).length,
      ((steps.foldl Ethane.apply Ethane.empty).classifier.actionTable slot).callback =
        some .actionClassifyForbidden)
    (ls : ExactLocals srcMatch [dstMatch]) {w : World n} {m : Fin n} (hw : w.WellFormed m)
    (hd : 4 ≤ (w.mbuf m).pkt.data) :
    ∃ verdict w' es,
      (steps.foldl Ethane.apply Ethane.empty).classifyEnforce ls w m = .ok (verdict, w') ∧
      w'.log = w.log ++ es ∧
      (verdict = .stop ∧ freed es = [some m] ↔ ∃ pair ∈ addedPairs steps, Carries w m pair) ∧
      ((¬ ∃ pair ∈ addedPairs steps, Carries w m pair) →
        verdict = .continue_ ∧ es = [] ∧ w.SameButHeadroom m w' ∧ w'.view m = w.view m) ∧
      ∀ text, .print text ∉ es := by
  have hforbids := foldl_apply_forbids hcb
  rcases hforbids.classifyEnforce (Nat.le_of_lt hlen) ls hw hd with
    ⟨hc, hrun⟩ | ⟨hc, w', hrun, hsame⟩
  · obtain ⟨es, hes, hlog, hfreed⟩ := free_log (pushHeader w m classForbid) (some m)
    refine ⟨.stop, _, .free (some m) :: es, hrun, ?_, ?_, fun h => absurd hc h, fun text hmem => ?_⟩
    · rw [hlog, pushHeader_log]
    · simp only [hfreed, hc, and_self]
    · rcases List.mem_cons.mp hmem with h | h
      · cases h
      · cases hes _ h
  · refine ⟨.continue_, w', [], hrun, ?_, ?_, fun _ => ⟨rfl, rfl, hsame, hsame.view⟩, by simp⟩
    · rw [hsame.log, List.append_nil]
    · simp [hc, freed]

def forbiddenFrame : World 1 :=
  rxChain (initEal (fun _ => .packet) (fun _ => none) fun _ => 0) 0
    [(0, List.replicate 26 0 ++ [10, 10, 10, 11, 10, 10, 10, 12])]

theorem classifyEnforce_policy_init :
    ∃ w' es, ([.addRule initPair, .setType 0 actionClassify,
        .setCallback 0 .actionClassifyForbidden].foldl Ethane.apply Ethane.empty).classifyEnforce
          (fun _ => 0, fun _ => 0) forbiddenFrame 0 = .ok (.stop, w') ∧
      freed es = [some 0] ∧ w'.log = forbiddenFrame.log ++ es := by
  obtain ⟨verdict, w', es, hrun, hlog, hiff, _⟩ := @classifyEnforce_policy 1
    [.addRule initPair, .setType 0 actionClassify, .setCallback 0 .actionClassifyForbidden]
    (by decide) (by intro slot hs; obtain rfl : slot = 0 := Nat.lt_one_iff.mp hs; rfl)
    (fun _ => 0, fun _ => 0) forbiddenFrame 0 (by unfold World.WellFormed; decide) (by decide)
  obtain ⟨rfl, hfreed⟩ := hiff.mpr ⟨initPair, List.mem_singleton.mpr rfl, by decide⟩
  exact ⟨w', es, hrun, hfreed, hlog⟩

end LearningSwitch
