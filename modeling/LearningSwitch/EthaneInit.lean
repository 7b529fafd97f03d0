import LearningSwitch.EthanePolicy

namespace LearningSwitch

/-- How far an lcore has got in `component_ethane_init`; `slot` is the slot that its `add_rule`
returned. -/
inductive InitPhase
  | start
  | added (slot : Nat)
  | typed (slot : Nat)
  | ready
deriving DecidableEq

def InitPhase.pending : InitPhase → Option Nat
  | .added slot => some slot
  | .typed slot => some slot
  | _ => none

structure InitSystem (L : Type) where
  ethane : Ethane
  phase : L → InitPhase

variable {L : Type} {n : Nat}

def InitSystem.boot (L : Type) : InitSystem L where
  ethane := .empty
  phase := fun _ => .start

/-- An atomic step of one lcore: the next access of `component_ethane_init`, or a call of
`Classify::component`. -/
inductive LcoreStep (L : Type) (n : Nat)
  | init (l : L)
  | classify (l : L) (ls : ExactLocals srcMatch [dstMatch]) (w : World n) (m : Fin n)

/-- The access that an lcore in the given phase makes next, and its phase after it. -/
def InitPhase.next (e : Ethane) : InitPhase → Option (RuleStep × InitPhase)
  | .start => some (.addRule initPair, .added (e.classifier.addRule initPair).1)
  | .added slot => some (.setType slot actionClassify, .typed slot)
  | .typed slot => some (.setCallback slot .actionClassifyForbidden, .ready)
  | .ready => none

/-- A step that the program order of its lcore does not allow yet changes nothing. -/
def initStep [DecidableEq L] (s : InitSystem L) : LcoreStep L n → Except Fault (InitSystem L)
  | .init l =>
    match (s.phase l).next s.ethane with
    | some (step, phase) => .ok ⟨s.ethane.apply step, Function.update s.phase l phase⟩
    | none => .ok s
  | .classify l ls w m =>
    if s.phase l = .ready then do
      let _ ← s.ethane.classify ls w m
      .ok s
    else .ok s

/-- Undisturbed, the three steps of one lcore are `component_ethane_init`. -/
theorem initStep_thrice [DecidableEq L] (s : InitSystem L) {l : L} (h : s.phase l = .start) :
    ∃ s', StepRun.run initStep s [.init l, .init l, (.init l : LcoreStep L n)] = .ok s' ∧
      s'.ethane = componentEthaneInit s.ethane ∧ s'.phase l = .ready := by
  have hrun : StepRun.run initStep s [.init l, .init l, (.init l : LcoreStep L n)] =
      .ok ⟨componentEthaneInit s.ethane, Function.update s.phase l .ready⟩ := by
    simp [StepRun.run_cons, initStep, InitPhase.next, h, componentEthaneInit]
  exact ⟨_, hrun, rfl, Function.update_self ..⟩

structure InitSystem.Inv (s : InitSystem L) : Prop where
  installed : s.ethane.classifier.Installed (List.replicate s.ethane.classifier.ruleCounter initPair)
  slots : ∀ l slot, (s.phase l).pending = some slot → slot < s.ethane.classifier.ruleCounter
  distinct : ∀ l l' slot, (s.phase l).pending = some slot → (s.phase l').pending = some slot → l = l'
  ready : ∀ l, s.phase l = .ready → 0 < s.ethane.classifier.ruleCounter
  first : (s.ethane.classifier.actionTable 0).callback = none ↔
    s.ethane.classifier.ruleCounter = 0 ∨ ∃ l, (s.phase l).pending = some 0

theorem InitSystem.inv_boot : (InitSystem.boot L).Inv where
  installed := by
    simpa [InitSystem.boot, Ethane.empty] using Classifier.installed_empty
  slots := by simp [InitSystem.boot, InitPhase.pending]
  distinct := by simp [InitSystem.boot, InitPhase.pending]
  ready := by simp [InitSystem.boot]
  first := by simp [InitSystem.boot, Ethane.empty, Action.init]

/-- A lookup calls through a null callback exactly when the packet carries the pair and the first
slot, the one it finds, is not finished. -/
theorem InitSystem.Inv.classify_nullCall_iff {s : InitSystem L} (h : s.Inv)
    (hpos : 0 < s.ethane.classifier.ruleCounter) (ls : ExactLocals srcMatch [dstMatch])
    (w : World n) (m : Fin n) :
    s.ethane.classify ls w m = .error .nullCall ↔ Carries w m initPair ∧
      (∃ l, (s.phase l).pending = some 0) ∧ s.ethane.classifier.ruleCounter ≤ maxTableSize := by
  have hfirst := h.first
  rw [or_iff_right (Nat.ne_of_gt hpos)] at hfirst
  rw [← hfirst]
  by_cases hlen : s.ethane.classifier.ruleCounter ≤ maxTableSize
  · have hfind := h.installed.find_eq_findIdx? (by simp) (by simpa using hlen) ls (w.byte m)
    have hidx : (List.replicate s.ethane.classifier.ruleCounter initPair).findIdx?
        (fun fields => decide (FieldsEqual (w.byte m) fields)) =
          if Carries w m initPair then some 0 else none := by
      obtain ⟨k, hk⟩ := Nat.exists_eq_add_one.mpr hpos
      rw [hk, List.replicate_succ]
      by_cases hc : Carries w m initPair
      · have hc' : FieldsEqual (w.byte m) initPair := hc
        simp [hc, hc', List.findIdx?_cons]
      · have hc' : ¬ FieldsEqual (w.byte m) initPair := hc
        simp [hc, hc', List.findIdx?_cons]
    rw [Ethane.classify, hfind, hidx, StepRun.ok_bind]
    by_cases hc : Carries w m initPair
    · rw [if_pos hc]
      cases hcb : (s.ethane.classifier.actionTable 0).callback <;> simp [hcb, hc, hlen]
    · simp [hc]
  · obtain ⟨f, hfind, hf⟩ := h.installed.find_overflow rfl (Nat.lt_of_not_le hlen) ls (w.byte m)
    rw [Ethane.classify, hfind, StepRun.error_bind]
    simp [hf, hlen]

variable [DecidableEq L]

theorem pending_update (phase : L → InitPhase) (l k : L) (p : InitPhase) :
    (Function.update phase l p k).pending = if k = l then p.pending else (phase k).pending := by
  by_cases hk : k = l
  · subst hk; simp
  · simp [hk]

theorem exists_pending_added {phase : L → InitPhase} {l : L} (hl : phase l = .start) (slot : Nat) :
    (∃ k, (Function.update phase l (.added slot) k).pending = some 0) ↔
      slot = 0 ∨ ∃ k, (phase k).pending = some 0 := by
  simp only [pending_update]
  constructor
  · intro h
    obtain ⟨k, hk⟩ := h
    split at hk
    next => exact Or.inl (Option.some.inj hk)
    next => exact Or.inr ⟨k, hk⟩
  · intro h
    rcases h with rfl | ⟨k, hk⟩
    · exact ⟨l, by rw [if_pos rfl]; rfl⟩
    · refine ⟨k, ?_⟩
      rwa [if_neg]
      rintro rfl
      rw [hl] at hk
      cases hk

theorem InitSystem.Inv.addRule {s : InitSystem L} (h : s.Inv) {l : L} (hl : s.phase l = .start) :
    InitSystem.Inv ⟨s.ethane.apply (.addRule initPair), Function.update s.phase l
      (.added (s.ethane.classifier.addRule initPair).1)⟩ := by
  have hslot := Classifier.addRule_slot s.ethane.classifier initPair
  have hcount := Classifier.ruleCounter_addRule s.ethane.classifier initPair
  have hactions := Classifier.actionTable_addRule s.ethane.classifier initPair
  have hphase : ∀ k, (Function.update s.phase l
      (.added (s.ethane.classifier.addRule initPair).1) k).pending =
        if k = l then some s.ethane.classifier.ruleCounter else (s.phase k).pending := by
    intro k
    rw [pending_update, hslot]
    rfl
  refine ⟨?_, fun k slot hp => ?_, fun k k' slot hp hp' => ?_, fun k _ => ?_, ?_⟩
  · have hinst := h.installed.addRule initPair
    rw [← List.replicate_succ', ← hcount] at hinst
    exact hinst
  · simp only [Ethane.apply, hcount]
    rw [hphase] at hp
    split at hp
    next => cases hp; omega
    next => have := h.slots k slot hp; omega
  · rw [hphase] at hp hp'
    split at hp
    next hk =>
      cases hp
      split at hp'
      next hk' => rw [hk, hk']
      next => exact absurd (h.slots k' _ hp') (Nat.lt_irrefl _)
    next =>
      split at hp'
      next =>
        cases hp'
        exact absurd (h.slots k _ hp) (Nat.lt_irrefl _)
      next => exact h.distinct k k' slot hp hp'
  · simp only [Ethane.apply, hcount]
    omega
  · rw [hslot, exists_pending_added hl]
    simpa only [Ethane.apply, hactions, hcount, Nat.add_eq_zero_iff, Nat.one_ne_zero, and_false,
      false_or] using h.first

theorem InitSystem.Inv.setType {s : InitSystem L} (h : s.Inv) {l : L} {slot : Nat}
    (hl : s.phase l = .added slot) :
    InitSystem.Inv ⟨s.ethane.apply (.setType slot actionClassify),
      Function.update s.phase l (.typed slot)⟩ := by
  have hphase : ∀ k, (Function.update s.phase l (.typed slot) k).pending = (s.phase k).pending := by
    intro k
    rw [pending_update]
    split
    next hk => rw [hk, hl]; rfl
    next => rfl
  have hcallback : ((s.ethane.apply (.setType slot actionClassify)).classifier.actionTable 0).callback =
      (s.ethane.classifier.actionTable 0).callback := by
    simp only [Ethane.apply, Classifier.actionTable_setAction]
    by_cases hslot : 0 = slot
    · rw [← hslot, Function.update_self]
    · rw [Function.update_of_ne hslot]
  have hcount : (s.ethane.apply (.setType slot actionClassify)).classifier.ruleCounter =
      s.ethane.classifier.ruleCounter := Classifier.ruleCounter_setAction ..
  refine ⟨?_, ?_, ?_, fun k hk => ?_, ?_⟩
  · rw [hcount]
    exact h.installed.setAction slot _
  · simpa only [hphase, hcount] using h.slots
  · simpa only [hphase] using h.distinct
  · rw [hcount]
    have hpos := h.slots l slot (by rw [hl]; rfl)
    omega
  · simpa only [hphase, hcallback, hcount] using h.first

theorem InitSystem.Inv.setCallback {s : InitSystem L} (h : s.Inv) {l : L} {slot : Nat}
    (hl : s.phase l = .typed slot) :
    InitSystem.Inv ⟨s.ethane.apply (.setCallback slot .actionClassifyForbidden),
      Function.update s.phase l .ready⟩ := by
  have hlp : (s.phase l).pending = some slot := by rw [hl]; rfl
  have hphase : ∀ k i, (Function.update s.phase l .ready k).pending = some i ↔
      k ≠ l ∧ (s.phase k).pending = some i := by
    intro k i
    rw [pending_update]
    by_cases hk : k = l <;> simp [hk, InitPhase.pending]
  have hcount : (s.ethane.apply
      (.setCallback slot .actionClassifyForbidden)).classifier.ruleCounter =
        s.ethane.classifier.ruleCounter := Classifier.ruleCounter_setAction ..
  have hpos := h.slots l slot hlp
  refine ⟨?_, fun k i hk => ?_, fun k k' i hk hk' => ?_, fun k _ => ?_, ?_⟩
  · rw [hcount]
    exact h.installed.setAction slot _
  · rw [hcount]
    exact h.slots k i ((hphase k i).mp hk).2
  · exact h.distinct k k' i ((hphase k i).mp hk).2 ((hphase k' i).mp hk').2
  · rw [hcount]
    omega
  · rw [hcount]
    simp only [hphase, Ethane.apply, Classifier.actionTable_setAction]
    by_cases hslot : 0 = slot
    · subst hslot
      rw [Function.update_self]
      constructor
      · intro hnone
        cases hnone
      · intro hor
        rcases hor with hzero | ⟨k, hk, hkp⟩
        · omega
        · exact absurd (h.distinct k l 0 hkp hlp) hk
    · rw [Function.update_of_ne hslot, h.first]
      refine or_congr_right (exists_congr fun k => ⟨fun hk => ⟨?_, hk⟩, And.right⟩)
      rintro rfl
      rw [hlp] at hk
      exact hslot (Option.some.inj hk).symm

theorem InitSystem.Inv.step {s t : InitSystem L} {a : LcoreStep L n} (h : s.Inv)
    (hstep : initStep s a = .ok t) : t.Inv := by
  cases a with
  | init l =>
    cases hl : s.phase l with
    | start =>
      simp only [initStep, hl, InitPhase.next, Except.ok.injEq] at hstep
      exact hstep ▸ h.addRule hl
    | added slot =>
      simp only [initStep, hl, InitPhase.next, Except.ok.injEq] at hstep
      exact hstep ▸ h.setType hl
    | typed slot =>
      simp only [initStep, hl, InitPhase.next, Except.ok.injEq] at hstep
      exact hstep ▸ h.setCallback hl
    | ready =>
      simp only [initStep, hl, InitPhase.next, Except.ok.injEq] at hstep
      exact hstep ▸ h
  | classify l ls w m =>
    simp only [initStep] at hstep
    split at hstep
    next =>
      obtain ⟨_, _, hstep⟩ := StepRun.bind_eq_ok.mp hstep
      exact Except.ok.inj hstep ▸ h
    next => exact Except.ok.inj hstep ▸ h

/-- A lookup meets no half-installed rule: its packet does not carry the pair, or the lcore that
holds slot 0 has finished, or more rules than bits make the lookup throw before any call. -/
def LcoreStep.Safe (s : InitSystem L) : LcoreStep L n → Prop
  | .init _ => True
  | .classify l _ w m => s.phase l = .ready →
      ¬ Carries w m initPair ∨ (∀ k, (s.phase k).pending ≠ some 0) ∨
        maxTableSize < s.ethane.classifier.ruleCounter

theorem InitSystem.Inv.nullCall_iff {s : InitSystem L} (h : s.Inv) (a : LcoreStep L n) :
    initStep s a = .error .nullCall ↔ ¬ a.Safe s := by
  cases a with
  | init l => cases hl : s.phase l <;> simp [initStep, hl, InitPhase.next, LcoreStep.Safe]
  | classify l ls w m =>
    by_cases hready : s.phase l = .ready
    · have hcall := h.classify_nullCall_iff (h.ready l hready) ls w m
      have hbind : initStep s (.classify l ls w m) = .error .nullCall ↔
          s.ethane.classify ls w m = .error .nullCall := by
        simp only [initStep, if_pos hready]
        cases s.ethane.classify ls w m <;> simp
      rw [hbind, hcall, LcoreStep.Safe]
      simp [hready]
    · simp [initStep, hready, LcoreStep.Safe]

/-- However the lcores interleave, no lookup calls through an unset callback exactly when each one
is safe in the state it runs in. -/
theorem initRun_nullCall_iff (steps : List (LcoreStep L n)) :
    StepRun.run initStep (InitSystem.boot L) steps ≠ .error .nullCall ↔
      StepRun.Along initStep (fun s a => a.Safe s) (InitSystem.boot L) steps := by
  refine StepRun.run_ne_error_iff (fun s a t => ?_) (fun s a h => h.nullCall_iff a)
    InitSystem.inv_boot steps
  exact InitSystem.Inv.step

/-- The first lcore has added its rule and no more when the second one, done with its own, looks
up a packet that carries the pair. -/
theorem initRun_firstUnfinished :
    ¬ ∀ steps : List (LcoreStep Bool 1),
      StepRun.run initStep (InitSystem.boot Bool) steps ≠ .error .nullCall := by
  intro h
  have hprefix : ∃ s, StepRun.run initStep (InitSystem.boot Bool) [.init false, .init true,
      .init true, (.init true : LcoreStep Bool 1)] = .ok s ∧ s.phase true = .ready ∧
        (s.phase false).pending = some 0 ∧ s.ethane.classifier.ruleCounter = 2 :=
    ⟨_, rfl, rfl, rfl, rfl⟩
  obtain ⟨s, hrun, hready, hpending, hcount⟩ := hprefix
  have hinv : s.Inv := StepRun.run_invariant (P := fun _ _ => True) (fun s a t hs _ => hs.step)
    InitSystem.inv_boot (StepRun.along_of_forall (fun _ _ => trivial) _) hrun
  have hnull : initStep s (.classify true (fun _ => 0, fun _ => 0) forbiddenFrame 0) =
      .error .nullCall := by
    rw [hinv.nullCall_iff]
    intro hsafe
    rcases hsafe hready with hcarry | hnone | hfull
    · exact hcarry (by decide)
    · exact hnone false hpending
    · rw [hcount] at hfull
      exact absurd hfull (by decide)
  apply h [.init false, .init true, .init true, .init true,
    .classify true (fun _ => 0, fun _ => 0) forbiddenFrame 0]
  have happend := StepRun.run_append initStep (InitSystem.boot Bool) [.init false, .init true,
    .init true, .init true] [.classify true (fun _ => 0, fun _ => 0) forbiddenFrame 0]
  rw [hrun, StepRun.ok_bind, StepRun.run_cons, hnull] at happend
  exact happend

end LearningSwitch
