import LearningSwitch.PatriciaPrefix

namespace LearningSwitch

open BackTree

variable {α δ : Type}

/-- Besides being ready: a new entry is a route, and the trie has no key in its range, unless it
has just the same route. -/
def PatOp.Routed (s : PatHeap α δ × List PatAnswer) (op : PatOp α δ) : Prop :=
  op.Ready s ∧
    match op with
    | .insert _ key m => (∃ len ≤ 32, m.pmMask = netmask len) ∧
      ∀ a, ∀ c ∈ s.1.node a, c.pKey &&& m.pmMask = key &&& m.pmMask →
        c.pM.map (·.map PtreeMask.pmMask) = some [m.pmMask]
    | .remove .. => True

instance {n : Nat} (s : PatHeap (Fin n) δ × List PatAnswer) (op : PatOp (Fin n) δ) :
    Decidable (op.Routed s) :=
  match op with
  | .insert x key m => inferInstanceAs (Decidable (PatOp.Ready s (.insert x key m) ∧
      (∃ len ≤ 32, m.pmMask = netmask len) ∧
      ∀ a, ∀ c ∈ s.1.node a, c.pKey &&& m.pmMask = key &&& m.pmMask →
        c.pM.map (·.map PtreeMask.pmMask) = some [m.pmMask]))
  | .remove q key mask strayNull =>
    inferInstanceAs (Decidable (PatOp.Ready s (.remove q key mask strayNull) ∧ True))

section Table

variable {T T' : PatTable δ} {len : UInt64 → Nat} {key : UInt64}

theorem PatTable.Routes.insert (h : T.Routes len) {m : PtreeMask δ} {l : Nat} (hl : l ≤ 32)
    (hm : m.pmMask = netmask l)
    (hnew : ∀ k, T.masks k ≠ [] → k &&& m.pmMask = key &&& m.pmMask →
      (T.masks k).map PtreeMask.pmMask = [m.pmMask])
    (hT : T.insert key m = .ok T') : ∃ len', T'.Routes len' ∧
      (∀ k, T.masks k ≠ [] → len' k = len k) ∧
      (∀ k, T'.masks k ≠ [] → T.masks k = [] → k = key &&& m.pmMask ∧ len' k = l) := by
  have hmasked := and_masked key m.pmMask
  rw [PatTable.insert] at hT
  generalize key &&& m.pmMask = k at *
  by_cases hnone : T.masks k = []
  · simp only [hnone, List.isEmpty_nil, if_true] at hT
    split at hT
    next => cases hT
    next =>
      obtain rfl := Except.ok.inj hT
      have hk0 : k ≠ 0 := by
        rintro rfl
        exact h.default.1 hnone
      refine ⟨Function.update len k l, ⟨fun k' m' hm' => ?_, fun k' => ?_, ?_⟩, fun k' hk' => ?_,
        fun k' hk' hold => ?_⟩
      · by_cases hkk : k' = k
        · subst hkk
          simp only [Function.update_self, List.mem_singleton] at hm' ⊢
          exact ⟨by rw [hm'], by rw [hm', hm]⟩
        · simp only [Function.update_of_ne hkk] at hm' ⊢
          exact h.single k' m' hm'
      · by_cases hkk : k' = k
        · rw [hkk, Function.update_self]
          exact hl
        · rw [Function.update_of_ne hkk]
          exact h.le k'
      · simp only [Function.update_of_ne (Ne.symm hk0)]
        exact h.default
      · refine Function.update_of_ne ?_ _ _
        rintro rfl
        exact hk' hnone
      · have hkk : k' = k := by
          by_contra hne
          simp only [Function.update_of_ne hne] at hk'
          exact hk' hold
        rw [hkk, Function.update_self]
        exact ⟨rfl, rfl⟩
  · have hmap := hnew k hnone hmasked
    obtain ⟨x, hx, hxm⟩ := List.map_eq_singleton_iff.mp hmap
    have hreplaced : replaceMask m [x] = [m] := by simp [replaceMask, hxm]
    have hin : ∃ y ∈ [x], y.pmMask = m.pmMask := ⟨x, List.mem_singleton_self x, hxm⟩
    simp only [hx, List.isEmpty_cons, Bool.false_eq_true, if_false, if_pos hin, hreplaced] at hT
    obtain rfl := Except.ok.inj hT
    have hother : ∀ k', k' ≠ k → Function.update T.masks k [m] k' = T.masks k' := fun k' hk' =>
      Function.update_of_ne hk' _ _
    refine ⟨len, ⟨fun k' m' hm' => ?_, h.le, ?_, h.default.2⟩, fun _ _ => rfl,
      fun k' hk' hold => ?_⟩
    · by_cases hkk : k' = k
      · subst hkk
        simp only [Function.update_self, List.mem_singleton] at hm' ⊢
        rw [hm']
        refine ⟨rfl, ?_⟩
        rw [← hxm]
        exact (h.single k' x (hx ▸ List.mem_singleton_self x)).2
      · simp only [hother k' hkk] at hm' ⊢
        exact h.single k' m' hm'
    · by_cases hk0 : 0 = k
      · simp [hk0]
      · simp only [hother 0 hk0]
        exact h.default.1
    · by_cases hkk : k' = k
      · exact absurd (hkk ▸ hold) hnone
      · simp only [hother k' hkk] at hk'
        exact absurd hold hk'

theorem PatTable.Routes.remove (h : T.Routes len) (key mask : UInt64) :
    (T.remove key mask).2.Routes len ∧
      ∀ k, (T.remove key mask).2.masks k ≠ [] → T.masks k ≠ [] := by
  have hsame : T.Routes len ∧ ∀ k, T.masks k ≠ [] → T.masks k ≠ [] := ⟨h, fun _ hk => hk⟩
  cases hms : T.masks key with
  | nil =>
    rw [PatTable.remove, hms]
    exact hsame
  | cons m ms =>
    obtain ⟨hsingle, _⟩ := h.single key m (hms ▸ List.mem_cons_self)
    rw [PatTable.remove_single hsingle]
    split
    next => exact hsame
    next hgo =>
      have hk0 : (0 : UInt64) ≠ key := fun heq => hgo (Or.inl heq.symm)
      have hlost : ∀ k, Function.update T.masks key [] k ≠ [] → k ≠ key := by
        rintro k hk rfl
        rw [Function.update_self] at hk
        exact hk rfl
      refine ⟨⟨fun k m' hm' => ?_, h.le, ?_, h.default.2⟩, fun k hk => ?_⟩
      · have hne := hlost k (List.ne_nil_of_mem hm')
        simp only [Function.update_of_ne hne] at hm' ⊢
        exact h.single k m' hm'
      · simp only [Function.update_of_ne hk0]
        exact h.default.1
      · have hne := hlost k hk
        simp only [Function.update_of_ne hne] at hk
        exact hk

end Table

section Routes

variable {s s' : PatHeap α δ} {head : α} {T T' : PatTable δ} {len len' : UInt64 → Nat}
  {side : Bool → BackTree α}

/-- Where no other key is in the range of a prefix, its node tests a position within it. -/
theorem PatHeap.Trie.pos_lt_of_alone (h : s.Trie head side) {a : α} {b : Bool}
    (ha : a ∈ (side b).nodes) {l : Nat} (hl : l ≤ 32) (hmasked : s.key a &&& netmask l = s.key a)
    (halone : ∀ y ∈ (patTree head side).nodes, y ≠ a → s.key y &&& netmask l ≠ s.key a) :
    s.pos a < l := by
  by_contra hnot
  have hkey := (h.keys b a ha).1
  have hback : a ∈ (side b).backs := (h.backs b).mem_iff.mpr (List.mem_cons_of_mem head ha)
  obtain ⟨hself, hzero⟩ := (masked_eq_iff hkey hl).mp hmasked
  obtain ⟨y, hy, hya, hagree⟩ := (h.sorted b).exists_agree (h.owns b) ha
  have hsame : ∀ i : Int, 0 < i → i < l → s.bits a i = s.bits y i := fun i h0 hi =>
    hagree i h0 (by omega)
  rcases List.mem_cons.mp ((h.backs b).mem_iff.mp hy) with heq | hin
  · -- then the key has no bits but the first, and the walk for it ends at the head
    have hbits : ∀ c ∈ (side b).nodes, s.bits a (s.pos c) = s.bits y (s.pos c) := by
      intro c hc
      have h0 := (h.sorted b).lt_pos c hc
      by_cases hi : s.pos c < l
      · exact hsame _ h0 hi
      · rw [heq, PatHeap.bits, PatHeap.bits, hzero _ (by omega) (h.high b c hc), h.keyHead,
          keyBit_zero]
    have hends := (h.sorted b).closest_eq hback fun _ _ => rfl
    rw [(h.sorted b).closest_eq hy hbits] at hends
    exact hya hends
  · refine halone y (mem_nodes_patTree.mpr (Or.inr ⟨b, hin⟩)) hya ?_
    refine (masked_eq_iff hkey hl).mpr ⟨fun i h0 hi => ?_, hzero⟩
    by_cases hi0 : i = 0
    · rw [hi0, (h.keys b y hin).2, (h.keys b a ha).2]
    · exact (hsame i (by omega) hi).symm

/-- After a call, the nodes are within their prefixes: no key went down, and what is new has its
range for itself. -/
theorem PatHeap.Prefixes.step (hp : s.Prefixes head T len) (h : s.Holds head T)
    (h' : s'.Holds head T') (hlifts : s.Lifts s') (hroutes : T'.Routes len')
    (hkeep : ∀ k, T.masks k ≠ [] → len' k = len k)
    (halone : ∀ k, T'.masks k ≠ [] → T.masks k = [] →
      ∀ k', T'.masks k' ≠ [] → k' &&& netmask (len' k) = k → k' = k) :
    s'.Prefixes head T' len' := by
  refine ⟨hroutes, fun a ha hhead => ?_⟩
  obtain ⟨side', hshape', hnodes'⟩ := h'.shape
  obtain ⟨c', hc'⟩ := Option.ne_none_iff_exists'.mp ha
  have hstored : ∀ b, s'.node b ≠ none → T'.masks (s'.key b) ≠ [] := by
    intro b hb
    obtain ⟨c, hc⟩ := Option.ne_none_iff_exists'.mp hb
    rw [PatHeap.key_eq hc]
    exact (h'.entry b c hc).2.2
  by_cases hold : T.masks (s'.key a) = []
  · rcases mem_nodes_patTree.mp ((hnodes' a).mpr ha) with heq | ⟨b, hin⟩
    · exact absurd heq hhead
    obtain ⟨m, hm⟩ := List.exists_mem_of_ne_nil _ (hstored a ha)
    refine hshape'.pos_lt_of_alone hin (hroutes.le _) ?_ fun y hy hya hrange => ?_
    · rw [← (hroutes.single _ m hm).2]
      exact (h'.masks _ m hm).2
    · have hkey := halone _ (hstored a ha) hold _ (hstored y ((hnodes' y).mp hy)) hrange
      exact hya (hshape'.key_inj hy ((hnodes' a).mpr ha) hkey)
  · obtain ⟨b, c, hc, hkey⟩ := h.complete _ hold
    have hlive : s.node b ≠ none := by simp [hc]
    have hkb : s'.key a = s.key b := ((PatHeap.key_eq hc).trans hkey).symm
    have hle := hlifts a b ha hlive hkb
    have hbhead : b ≠ head := by
      rintro rfl
      obtain ⟨side, hshape, _⟩ := h.shape
      refine hhead (hshape'.key_inj ((hnodes' a).mpr ha) hshape'.head_mem ?_)
      rw [hkb, hshape.keyHead, hshape'.keyHead]
    have hlt := hp.above b hlive hbhead
    rw [hkeep _ hold, hkb]
    omega

variable [DecidableEq α] {answers : List PatAnswer}

/-- One call. -/
theorem patStep_prefixes (h : s.Holds head T) (hp : s.Prefixes head T len) {op : PatOp α δ}
    (hrouted : op.Routed (s, answers)) {t : PatHeap α δ × List PatAnswer}
    (hstep : patStep head (s, answers) op = .ok t) :
    ∃ T' len', tableStep (T, answers) op = .ok (T', t.2) ∧ t.1.Holds head T' ∧
      t.1.Prefixes head T' len' := by
  obtain ⟨hready, hroute⟩ := hrouted
  have hrefines := patStep_refines h hready
  cases hT : tableStep (T, answers) op with
  | error e =>
    rw [hT, hstep] at hrefines
    cases hrefines
  | ok T' =>
    rw [hT] at hrefines
    obtain ⟨s', hs', h', hlifts⟩ := hrefines
    obtain rfl := Except.ok.inj (hs'.symm.trans hstep)
    refine ⟨T'.1, ?_⟩
    cases op with
    | insert x key m =>
      obtain ⟨⟨l, hl, hm⟩, hrange⟩ := hroute
      rw [tableStep] at hT
      cases hinsert : T.insert key m with
      | error e =>
        rw [hinsert] at hT
        cases hT
      | ok T₁ =>
        rw [hinsert] at hT
        obtain rfl := Except.ok.inj hT
        have hnew : ∀ k, T.masks k ≠ [] → k &&& m.pmMask = key &&& m.pmMask →
            (T.masks k).map PtreeMask.pmMask = [m.pmMask] := by
          intro k hk hin
          obtain ⟨a, c, hc, rfl⟩ := h.complete k hk
          have hmasks := hrange a c hc hin
          rw [(h.entry a c hc).1, Option.map_some, Option.some.injEq] at hmasks
          exact hmasks
        obtain ⟨len', hroutes, hkeep, hadded⟩ := hp.toRoutes.insert hl hm hnew hinsert
        refine ⟨len', rfl, h', hp.step h h' hlifts hroutes hkeep fun k hk hold k' hk' hin => ?_⟩
        obtain ⟨rfl, hlen⟩ := hadded k hk hold
        rw [hlen, ← hm] at hin
        by_cases hold' : T.masks k' = []
        · exact (hadded k' hk' hold').1
        · -- an old key in the range would have this very route, which is new
          obtain ⟨y, hy, hym⟩ := List.map_eq_singleton_iff.mp (hnew k' hold' hin)
          have hmasked := (h.masks k' y (hy ▸ List.mem_singleton_self y)).2
          rw [hym, hin] at hmasked
          exact hmasked.symm
    | remove q key mask strayNull =>
      rw [tableStep] at hT
      cases strayNull with
      | true =>
        obtain rfl := Except.ok.inj hT
        exact ⟨len, rfl, h', hp.step h h' hlifts hp.toRoutes (fun _ _ => rfl)
          fun k hk hold => absurd hold hk⟩
      | false =>
        obtain rfl := Except.ok.inj hT
        obtain ⟨hroutes, hkeys⟩ := hp.toRoutes.remove key mask
        exact ⟨len, rfl, h', hp.step h h' hlifts hroutes (fun _ _ => rfl)
          fun k hk hold => absurd hold (hkeys k hk)⟩

/-- Many calls. -/
theorem patRun_prefixes (h : s.Holds head T) (hp : s.Prefixes head T len)
    {ops : List (PatOp α δ)}
    (hrouted : StepRun.Along (patStep head) PatOp.Routed (s, answers) ops)
    {t : PatHeap α δ × List PatAnswer}
    (hrun : StepRun.run (patStep head) (s, answers) ops = .ok t) :
    ∃ T' len', StepRun.run tableStep (T, answers) ops = .ok (T', t.2) ∧ t.1.Holds head T' ∧
      t.1.Prefixes head T' len' := by
  induction ops generalizing s T len answers with
  | nil =>
    obtain rfl := Except.ok.inj hrun
    exact ⟨T, len, rfl, h, hp⟩
  | cons op ops ih =>
    rw [StepRun.run_cons] at hrun
    cases hstep : patStep head (s, answers) op with
    | error e =>
      rw [hstep] at hrun
      cases hrun
    | ok s' =>
      rw [hstep] at hrun
      obtain ⟨T', len', hT', h', hp'⟩ := patStep_prefixes h hp hrouted.1 hstep
      rw [StepRun.run_cons, hT']
      exact ih h' hp' (hrouted.2 _ hstep) hrun

theorem patHead_prefixes (head : α) (data : Option δ) :
    (patHead head data).Prefixes head (.start data) fun _ => 0 where
  single := by
    intro k m hm
    have hzero : netmask 0 = 0 := by decide
    by_cases hk : k = 0
    · rw [hk] at hm ⊢
      simp only [PatTable.start, Function.update_self, List.mem_singleton] at hm ⊢
      rw [hm, hzero]
      exact ⟨rfl, rfl⟩
    · simp [PatTable.start, hk] at hm
  le := fun _ => Nat.zero_le 32
  default := by simp [PatTable.start]
  above := by
    intro a ha hne
    simp [patHead, hne] at ha

/-- If, whenever a route is added, no key in its range is there yet, then `pat_search` is a longest
prefix match: whatever routes came and went, it finds the entry with the longest mask of all that
cover the address. -/
theorem pat_search_longest_prefix {data : Option δ} {ops : List (PatOp α δ)}
    (hrouted : StepRun.Along (patStep head) PatOp.Routed (patHead head data, []) ops)
    (hrun : StepRun.run (patStep head) (patHead head data, []) ops = .ok (s, answers))
    {key : UInt64} (hkey : key.toNat < 2 ^ 32) :
    ∃ T, StepRun.run tableStep (PatTable.start data, []) ops = .ok (T, answers) ∧
      ∃ a m, patSearch s key (some head) = .ok (some a) ∧ T.masks (s.key a) = [m] ∧
        key &&& m.pmMask = s.key a ∧
        ∀ k, ∀ m' ∈ T.masks k, key &&& m'.pmMask = k → m'.pmMask ≤ m.pmMask := by
  obtain ⟨T, len, hT, hholds, hp⟩ :=
    patRun_prefixes (patHead_holds head data) (patHead_prefixes head data) hrouted hrun
  exact ⟨T, hT, patSearch_longest hholds hp hkey⟩

end Routes

/-- A route, and another within it. -/
def nestedRoutes : List (PatOp (Fin 7) Nat) :=
  [.insert 1 0x0a000000 { pmMask := 0xff000000, pmData := some 11 },
    .insert 2 0x0a010000 { pmMask := 0xffff0000, pmData := some 12 }]

theorem pat_search_longest_prefix_nestedRoutes : ∃ (s : PatHeap (Fin 7) Nat) (a : Fin 7)
    (m : PtreeMask Nat),
    StepRun.run (patStep 0) (patHead 0 (some 10), []) nestedRoutes =
      .ok (s, [.inserted (some 0x0a000000), .inserted (some 0x0a010000)]) ∧
    patSearch s 0x0a010203 (some 0) = .ok (some a) ∧ 0x0a010203 &&& m.pmMask = s.key a ∧
    0xffff0000 ≤ m.pmMask := by
  have hrouted : StepRun.Along (patStep 0) PatOp.Routed (patHead 0 (some 10), [])
      nestedRoutes := by
    decide +kernel
  obtain ⟨s, hrun⟩ : ∃ s, StepRun.run (patStep 0) (patHead 0 (some 10), []) nestedRoutes =
      .ok (s, [.inserted (some 0x0a000000), .inserted (some 0x0a010000)]) :=
    run_of_map_snd (by decide +kernel)
  obtain ⟨T, hT, a, m, ha, _, hcover, hlongest⟩ := pat_search_longest_prefix hrouted hrun
    (show (0x0a010203 : UInt64).toNat < 2 ^ 32 by decide)
  obtain ⟨T', hT', hin⟩ : ∃ T', StepRun.run tableStep (PatTable.start (some 10), []) nestedRoutes =
      .ok T' ∧ { pmMask := 0xffff0000, pmData := some 12 } ∈ T'.1.masks 0x0a010000 :=
    ⟨_, rfl, by decide +kernel⟩
  obtain rfl := Except.ok.inj (hT.symm.trans hT')
  exact ⟨s, a, m, hrun, ha, hcover, hlongest _ _ hin (by decide)⟩

/-- The other way round the search misses the longer prefix. -/
example : (StepRun.run (patStep (0 : Fin 7)) (patHead 0 (some 10), [])
    [.insert 1 0x0a010000 { pmMask := 0xffff0000, pmData := some 12 },
      .insert 2 0x0a000000 { pmMask := 0xff000000, pmData := some 11 },
      .insert 3 0x0a018000 { pmMask := 0xffffffff, pmData := some 13 }]).bind (fun s =>
        (patSearch s.1 0x0a018005 (some 0)).map (·.map s.1.key)) = .ok (some 0x0a000000) := by
  decide +kernel

end LearningSwitch
