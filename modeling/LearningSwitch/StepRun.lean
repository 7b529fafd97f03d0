import Mathlib.Data.List.Basic

namespace StepRun

variable {σ τ α ε : Type}

/-- Run a fallible step along a list of inputs; the first error ends the run. -/
def run (step : σ → α → Except ε σ) : σ → List α → Except ε σ
  | s, [] => .ok s
  | s, a :: as => do
    let t ← step s a
    run step t as

/-- Every step the run takes meets `P` in the state it is taken in. -/
def Along (step : σ → α → Except ε σ) (P : σ → α → Prop) : σ → List α → Prop
  | _, [] => True
  | s, a :: as => P s a ∧ ∀ t, step s a = .ok t → Along step P t as

instance decidableAlong {step : σ → α → Except ε σ} {P : σ → α → Prop}
    [∀ s a, Decidable (P s a)] : ∀ (s : σ) (as : List α), Decidable (Along step P s as)
  | _, [] => isTrue trivial
  | s, a :: as =>
    match h : step s a with
    | .error _ => decidable_of_iff (P s a) (by simp [Along, h])
    | .ok t =>
      have : Decidable (Along step P t as) := decidableAlong t as
      decidable_of_iff (P s a ∧ Along step P t as) (by simp [Along, h])

theorem bind_eq_ok {x : Except ε σ} {f : σ → Except ε τ} {t : τ} :
    (x >>= f) = .ok t ↔ ∃ s, x = .ok s ∧ f s = .ok t := by
  cases x with
  | error e => simp [bind, Except.bind]
  | ok s => simp [bind, Except.bind]

@[simp] theorem ok_bind (s : σ) (f : σ → Except ε τ) :
    ((Except.ok s : Except ε σ) >>= f) = f s := rfl

@[simp] theorem error_bind (e : ε) (f : σ → Except ε τ) :
    ((Except.error e : Except ε σ) >>= f) = .error e := rfl

@[simp] theorem run_nil (step : σ → α → Except ε σ) (s : σ) : run step s [] = .ok s := rfl

theorem run_cons (step : σ → α → Except ε σ) (s : σ) (a : α) (as : List α) :
    run step s (a :: as) = step s a >>= fun t => run step t as := rfl

theorem run_cons_ok {step : σ → α → Except ε σ} {s u : σ} {a : α} {as : List α} :
    run step s (a :: as) = .ok u ↔ ∃ t, step s a = .ok t ∧ run step t as = .ok u :=
  bind_eq_ok

theorem run_append (step : σ → α → Except ε σ) (s : σ) (as bs : List α) :
    run step s (as ++ bs) = run step s as >>= fun t => run step t bs := by
  induction as generalizing s with
  | nil => rfl
  | cons a as ih =>
    cases h : step s a with
    | error e => simp [run_cons, h]
    | ok t => simpa [run_cons, h] using ih t

/-- A property that every guarded step keeps holds at the end of a guarded run. -/
theorem run_invariant {step : σ → α → Except ε σ} {P : σ → α → Prop} {Inv : σ → Prop}
    (keeps : ∀ s a t, Inv s → P s a → step s a = .ok t → Inv t)
    {s t : σ} {as : List α} (hs : Inv s) (ha : Along step P s as)
    (h : run step s as = .ok t) : Inv t := by
  induction as generalizing s with
  | nil => cases h; exact hs
  | cons a as ih =>
    obtain ⟨u, hu, h⟩ := run_cons_ok.mp h
    exact ih (keeps s a u hs ha.1 hu) (ha.2 u hu) h

/-- If every guarded step succeeds and keeps a property, so does every guarded run. -/
theorem run_ok_of_along {step : σ → α → Except ε σ} {P : σ → α → Prop} {Inv : σ → Prop}
    (keeps : ∀ s a, Inv s → P s a → ∃ t, step s a = .ok t ∧ Inv t)
    {s : σ} {as : List α} (hs : Inv s) (ha : Along step P s as) :
    ∃ t, run step s as = .ok t ∧ Inv t := by
  induction as generalizing s with
  | nil => exact ⟨s, rfl, hs⟩
  | cons a as ih =>
    obtain ⟨t, ht, hinv⟩ := keeps s a hs ha.1
    obtain ⟨u, hu, hinv⟩ := ih hinv (ha.2 t ht)
    exact ⟨u, run_cons_ok.mpr ⟨t, ht, hu⟩, hinv⟩

/-- If a step fails with `e` exactly when it misses `P`, a run fails with `e` exactly when it
takes a step that misses `P`. -/
theorem run_ne_error_iff {step : σ → α → Except ε σ} {P : σ → α → Prop} {Inv : σ → Prop} {e : ε}
    (keeps : ∀ s a t, Inv s → step s a = .ok t → Inv t)
    (fails : ∀ s a, Inv s → (step s a = .error e ↔ ¬P s a))
    {s : σ} (hs : Inv s) (as : List α) : run step s as ≠ .error e ↔ Along step P s as := by
  induction as generalizing s with
  | nil => simp [Along]
  | cons a as ih =>
    have hfail := fails s a hs
    rw [run_cons, Along]
    cases hstep : step s a with
    | error f =>
      rw [hstep] at hfail
      simpa using not_congr hfail
    | ok t =>
      have hp : P s a := by
        by_contra hp
        rw [hfail.mpr hp] at hstep
        cases hstep
      simpa [hp] using ih (keeps s a t hs hstep)

/-- A guard on the inputs alone is met along any run of them. -/
theorem along_of_forall {step : σ → α → Except ε σ} {P : α → Prop} {as : List α}
    (h : ∀ a ∈ as, P a) (s : σ) : Along step (fun _ a => P a) s as := by
  induction as generalizing s with
  | nil => trivial
  | cons a as ih =>
    exact ⟨h a (by simp), fun t _ => ih (fun b hb => h b (by simp [hb])) t⟩

end StepRun
