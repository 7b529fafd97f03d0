import LearningSwitch.StepRun

namespace InputTrace

variable {σ α β ε : Type}

/-- Every input of the second list is good, given the inputs before it. -/
def GoodAfter (good : List β → β → Prop) : List β → List β → Prop
  | _, [] => True
  | past, b :: bs => good past b ∧ GoodAfter good (past ++ [b]) bs

theorem goodAfter_append {good : List β → β → Prop} {past bs cs : List β} :
    GoodAfter good past (bs ++ cs) ↔ GoodAfter good past bs ∧ GoodAfter good (past ++ bs) cs := by
  induction bs generalizing past with
  | nil => simp [GoodAfter]
  | cons b bs ih => simp [GoodAfter, ih, and_assoc]

theorem goodAfter_iff {good : List β → β → Prop} {past bs : List β} :
    GoodAfter good past bs ↔
      ∀ pre b post, bs = pre ++ b :: post → good (past ++ pre) b := by
  induction bs generalizing past with
  | nil => simp [GoodAfter]
  | cons c bs ih =>
    rw [GoodAfter, ih]
    constructor
    · intro h pre b post hsplit
      cases pre with
      | nil =>
        cases hsplit
        simpa using h.1
      | cons d pre =>
        cases hsplit
        simpa using h.2 pre b post rfl
    · intro h
      refine ⟨by simpa using h [] c bs rfl, fun pre b post hsplit => ?_⟩
      simpa using h (c :: pre) b post (by rw [hsplit, List.cons_append])

/-- A step takes the inputs of `a` one after the other and keeps `Inv` of the inputs so far, or
fails with `e` because one of them is not good. -/
def Takes (step : σ → α → Except ε σ) (Inv : List β → σ → Prop) (good : List β → β → Prop)
    (e : ε) (inputs : α → List β) (P : α → Prop) : Prop :=
  ∀ s past a, Inv past s → P a →
    (GoodAfter good past (inputs a) ∧ ∃ t, step s a = .ok t ∧ Inv (past ++ inputs a) t) ∨
      (¬GoodAfter good past (inputs a) ∧ step s a = .error e)

/-- A run of such steps is such a step. -/
theorem Takes.run {step : σ → α → Except ε σ} {Inv : List β → σ → Prop}
    {good : List β → β → Prop} {e : ε} {inputs : α → List β} {P : α → Prop}
    (h : Takes step Inv good e inputs P) :
    Takes (StepRun.run step) Inv good e (fun as => as.flatMap inputs)
      fun as => ∀ a ∈ as, P a := by
  intro s past as
  induction as generalizing s past with
  | nil =>
    intro hinv _
    exact Or.inl ⟨trivial, s, rfl, by simpa using hinv⟩
  | cons a as ih =>
    intro hinv hall
    simp only [List.flatMap_cons, goodAfter_append]
    rcases h s past a hinv (hall a List.mem_cons_self) with ⟨hgood, t, ht, hinv'⟩ | ⟨hbad, herr⟩
    · rcases ih t (past ++ inputs a) hinv' (fun b hb => hall b (List.mem_cons_of_mem a hb)) with
        ⟨hrest, u, hu, hend⟩ | ⟨hbad, herr⟩
      · refine Or.inl ⟨⟨hgood, hrest⟩, u, StepRun.run_cons_ok.mpr ⟨t, ht, hu⟩, ?_⟩
        rwa [← List.append_assoc]
      · refine Or.inr ⟨fun hboth => hbad hboth.2, ?_⟩
        rw [StepRun.run_cons, ht, StepRun.ok_bind, herr]
    · refine Or.inr ⟨fun hboth => hbad hboth.1, ?_⟩
      rw [StepRun.run_cons, herr, StepRun.error_bind]

/-- A step that comes to an end has taken the inputs of `a` and kept `Inv` of the inputs so far. -/
def Feeds (step : σ → α → Except ε σ) (Inv : List β → σ → Prop) (inputs : α → List β)
    (P : α → Prop) : Prop :=
  ∀ s past a t, Inv past s → P a → step s a = .ok t → Inv (past ++ inputs a) t

theorem Feeds.run {step : σ → α → Except ε σ} {Inv : List β → σ → Prop} {inputs : α → List β}
    {P : α → Prop} (h : Feeds step Inv inputs P) :
    Feeds (StepRun.run step) Inv (fun as => as.flatMap inputs) fun as => ∀ a ∈ as, P a := by
  intro s past as
  induction as generalizing s past with
  | nil =>
    intro t hinv _ hrun
    cases hrun
    simpa using hinv
  | cons a as ih =>
    intro u hinv hall hrun
    obtain ⟨t, ht, hrun⟩ := StepRun.run_cons_ok.mp hrun
    have hstep := h s past a t hinv (hall a List.mem_cons_self) ht
    have hrest := ih t _ u hstep (fun b hb => hall b (List.mem_cons_of_mem a hb)) hrun
    show Inv (past ++ (a :: as).flatMap inputs) u
    rwa [List.flatMap_cons, ← List.append_assoc]

end InputTrace
