import Mathlib.Algebra.Ring.Nat
import LearningSwitch.PatriciaRuns

namespace LearningSwitch

open BackTree

variable {α δ : Type}

/-- What the search remembers behind the node `a`. -/
def PatHeap.cover (s : PatHeap α δ) (key : UInt64) (p : Option α) (a : α) : Option α :=
  match s.covers key a with
  | .ok true => some a
  | _ => p

section Search

variable {s : PatHeap α δ} {head : α} {T : PatTable δ} {side : Bool → BackTree α}

/-- A node covers the keys that its first mask reduces to its own. -/
theorem PatHeap.Holds.covers_ok (h : s.Holds head T) {a : α} (ha : s.node a ≠ none)
    (key : UInt64) : ∃ m ms, T.masks (s.key a) = m :: ms ∧
      s.covers key a = .ok (s.key a == key &&& m.pmMask) := by
  obtain ⟨c, hc⟩ := Option.ne_none_iff_exists'.mp ha
  obtain ⟨m, ms, hms, hfirst⟩ := h.firstMask_ok hc
  refine ⟨m, ms, PatHeap.key_eq hc ▸ hms, ?_⟩
  rw [PatHeap.covers, PatHeap.load_ok hc, StepRun.ok_bind, hfirst, StepRun.ok_bind,
    PatHeap.key_eq hc]

/-- The loop and the last test of the search are one fold over the way. -/
theorem patSearch_eq (h : s.Holds head T) (hshape : s.Trie head side)
    (hnodes : ∀ a, a ∈ (patTree head side).nodes ↔ s.node a ≠ none) {key : UInt64}
    (hkey : key.toNat < 2 ^ 32) : patSearch s key (some head) =
      .ok (s.cover key (((patTree head side).path (s.go key)).foldl (s.cover key) none)
        ((patTree head side).closest (s.go key))) := by
  have hvisit : ∀ p, ∀ a ∈ (patTree head side).nodes,
      (s.covers key a >>= fun hit => Except.ok (if hit then some a else p)) =
        .ok (s.cover key p a) := by
    intro p a ha
    obtain ⟨m, ms, _, hcovers⟩ := h.covers_ok ((hnodes a).mp ha) key
    rw [hcovers, StepRun.ok_bind, PatHeap.cover, hcovers]
    cases s.key a == key &&& m.pmMask <;> rfl
  rw [patSearch]
  show (descend s key (fun p t => s.covers key t >>= fun hit =>
    Except.ok (if hit then some t else p)) patSteps none head >>= _) = _
  rw [hshape.descend hkey (v := s.cover key)
    (fun p a ha => hvisit p a (path_mem_nodes a ha)), StepRun.ok_bind]
  exact hvisit _ _ (hshape.closest_mem key)

theorem cover_eq_some {key : UInt64} {p : Option α} {a b : α} (h : s.cover key p a = some b) :
    (b = a ∧ s.covers key a = .ok true) ∨ p = some b := by
  rw [PatHeap.cover] at h
  split at h
  next hcovers => exact Or.inl ⟨(Option.some.inj h).symm, hcovers⟩
  next => exact Or.inr h

theorem foldl_cover_eq_some {key : UInt64} {way : List α} {p : Option α} {b : α}
    (h : way.foldl (s.cover key) p = some b) :
    (b ∈ way ∧ s.covers key b = .ok true) ∨ p = some b := by
  induction way generalizing p with
  | nil => exact Or.inr h
  | cons a way ih =>
    rcases ih h with ⟨hb, hcovers⟩ | hp
    · exact Or.inl ⟨List.mem_cons_of_mem a hb, hcovers⟩
    · rcases cover_eq_some hp with ⟨rfl, hcovers⟩ | hp
      · exact Or.inl ⟨List.mem_cons_self, hcovers⟩
      · exact Or.inr hp

/-- What `pat_search` promises: a node that covers the key, and the node of the key itself if there
is one. It returns NULL only if the default entry has lost its mask. -/
theorem patSearch_ok (h : s.Holds head T) {key : UInt64} (hkey : key.toNat < 2 ^ 32) :
    ∃ r, patSearch s key (some head) = .ok r ∧
      (T.masks key ≠ [] → ∃ a, r = some a ∧ s.key a = key) ∧
      (∀ a, r = some a → s.node a ≠ none ∧
        ∃ m ms, T.masks (s.key a) = m :: ms ∧ s.key a = key &&& m.pmMask) ∧
      (r = none → ∃ m ms, T.masks 0 = m :: ms ∧ key &&& m.pmMask ≠ 0) := by
  obtain ⟨side, hshape, hnodes⟩ := h.shape
  have hmem := hshape.closest_mem key
  have hhead := (hnodes head).mp hshape.head_mem
  have hcovered : ∀ a, s.node a ≠ none → s.covers key a = .ok true →
      ∃ m ms, T.masks (s.key a) = m :: ms ∧ s.key a = key &&& m.pmMask := by
    intro a ha htrue
    obtain ⟨m, ms, hms, hcovers⟩ := h.covers_ok ha key
    rw [hcovers, Except.ok.injEq, beq_iff_eq] at htrue
    exact ⟨m, ms, hms, htrue⟩
  refine ⟨_, patSearch_eq h hshape hnodes hkey, fun hstored => ?_, fun a ha => ?_, fun hnone => ?_⟩
  · have hclosest := (h.stored_iff hshape hnodes key).mpr hstored
    obtain ⟨m, ms, hms, hcovers⟩ := h.covers_ok ((hnodes _).mp hmem) key
    have hmask := (h.masks _ m (hms ▸ List.mem_cons_self)).2
    rw [hclosest] at hmask hcovers
    refine ⟨_, ?_, hclosest⟩
    rw [PatHeap.cover, hcovers, hmask, beq_self_eq_true]
  · rcases cover_eq_some ha with ⟨rfl, hcovers⟩ | hp
    · exact ⟨(hnodes _).mp hmem, hcovered _ ((hnodes _).mp hmem) hcovers⟩
    · rcases foldl_cover_eq_some hp with ⟨hin, hcovers⟩ | hnone
      · have hlive := (hnodes a).mp (path_mem_nodes a hin)
        exact ⟨hlive, hcovered a hlive hcovers⟩
      · cases hnone
  · obtain ⟨m, ms, hms, hcovers⟩ := h.covers_ok hhead key
    rw [hshape.keyHead] at hms hcovers
    refine ⟨m, ms, hms, fun hzero => ?_⟩
    rw [hzero, beq_self_eq_true] at hcovers
    -- the head comes first, and what is found once stays or is replaced
    have hkeeps : ∀ (way : List α) (p : Option α), p ≠ none →
        way.foldl (s.cover key) p ≠ none := by
      intro way
      induction way with
      | nil => exact fun p hp => hp
      | cons a way ih =>
        refine fun p hp => ih _ ?_
        rw [PatHeap.cover]
        split
        next => simp
        next => exact hp
    have hfound := hkeeps ((side (s.go key head)).path (s.go key)) (some head) (by simp)
    rw [path_patTree, List.foldl_cons, PatHeap.cover, PatHeap.cover, hcovers] at hnone
    split at hnone
    next => cases hnone
    next => exact hfound hnone

end Search

section Count

variable {s : PatHeap α δ} {head : α} {T : PatTable δ}

def PatHeap.mlen (s : PatHeap α δ) (a : α) : Nat :=
  match s.node a with
  | none => 0
  | some c => c.pMlen.toNat

/-- What an `int` holds of a count. -/
def intCount (total : Nat) : Except PatFault Int :=
  if total < 2 ^ 31 then .ok total else .error .intOverflow

/-- A sum of counts overflows in one of its steps exactly when the whole of it does not fit. -/
theorem addCounts_eq {own left right : Nat} (hown : own < 2 ^ 31) :
    (do
      let l ← intCount left
      let count ← addCount own l
      let r ← intCount right
      addCount count r) = intCount (own + left + right) := by
  by_cases hleft : own + left < 2 ^ 31
  · have hfirst : addCount own left = .ok ((own + left : Nat) : Int) := by
      rw [addCount, if_pos (by omega)]
      rfl
    rw [intCount, if_pos (by omega), StepRun.ok_bind, hfirst, StepRun.ok_bind]
    by_cases hright : right < 2 ^ 31
    · rw [intCount, if_pos hright, StepRun.ok_bind, addCount, intCount]
      by_cases hall : own + left + right < 2 ^ 31
      · rw [if_pos (by omega), if_pos hall]
        rfl
      · rw [if_neg (by omega), if_neg hall]
    · rw [intCount, if_neg hright, StepRun.error_bind, intCount, if_neg (by omega)]
  · rw [intCount]
    split
    next =>
      rw [StepRun.ok_bind, addCount, if_neg (by omega), StepRun.error_bind, intCount,
        if_neg (by omega)]
    next => rw [StepRun.error_bind, intCount, if_neg (by omega)]

/-- The recursion counts every node of the tree once, and stops at the links back. -/
theorem patCount_eq {lo : Int} {p : Option α} {t : BackTree α} (h : s.Walkable lo p t)
    {fuel : Nat} (hlo : lo ≤ 31) (hfuel : 32 - lo ≤ fuel) :
    patCount s fuel p lo = intCount ((t.nodes.map s.mlen).sum) := by
  induction t generalizing lo p fuel with
  | back a =>
    obtain ⟨b, c, rfl, hc⟩ := h.root
    have hle := (h.back_iff rfl).mpr ⟨a, rfl⟩
    rw [PatHeap.pos_eq hc] at hle
    cases fuel with
    | zero => omega
    | succ fuel =>
      rw [patCount, show deref (some b) = .ok b from rfl, StepRun.ok_bind, PatHeap.load_ok hc,
        StepRun.ok_bind, if_pos hle]
      rfl
  | node a l r ihl ihr =>
    obtain ⟨c, rfl, hc, h0, h31, hbelow, hchild⟩ := h.step
    cases fuel with
    | zero => omega
    | succ fuel =>
      have hleft : patCount s fuel c.pLeft c.pB.toInt = intCount ((l.nodes.map s.mlen).sum) :=
        ihl (hchild false) h31 (by omega)
      have hright : patCount s fuel c.pRight c.pB.toInt = intCount ((r.nodes.map s.mlen).sum) :=
        ihr (hchild true) h31 (by omega)
      have hsum : ((BackTree.node a l r).nodes.map s.mlen).sum =
          c.pMlen.toNat + (l.nodes.map s.mlen).sum + (r.nodes.map s.mlen).sum := by
        rw [nodes, List.map_cons, List.map_append, List.sum_cons, List.sum_append, PatHeap.mlen, hc]
        exact (Nat.add_assoc ..).symm
      have hown : c.pMlen.toNat < 2 ^ 31 := c.pMlen.toNat_lt.trans (by decide)
      rw [patCount, show deref (some a) = .ok a from rfl, StepRun.ok_bind, PatHeap.load_ok hc,
        StepRun.ok_bind, if_neg (by omega), hleft, hright, hsum]
      exact addCounts_eq hown

theorem PatHeap.Holds.count (h : s.Holds head T) : ∃ keys : List UInt64, keys.Nodup ∧
    (∀ k, k ∈ keys ↔ T.masks k ≠ []) ∧
    patCount s patSteps (some head) (-1) =
      intCount ((keys.map fun k => (T.masks k).length).sum) := by
  obtain ⟨side, hshape, hnodes⟩ := h.shape
  refine ⟨(patTree head side).nodes.map s.key, ?_, fun k => ?_, ?_⟩
  · refine List.Nodup.map_on (fun a ha b hb hkey => ?_) hshape.nodup
    exact hshape.key_inj ha hb hkey
  · rw [List.mem_map]
    constructor
    · rintro ⟨a, ha, rfl⟩
      obtain ⟨c, hc⟩ := hshape.exists_node ha
      rw [PatHeap.key_eq hc]
      exact (h.entry a c hc).2.2
    · intro hne
      obtain ⟨a, c, hc, hkey⟩ := h.complete k hne
      exact ⟨a, (hnodes a).mpr (by simp [hc]), (PatHeap.key_eq hc).trans hkey⟩
  · rw [patCount_eq hshape.walkable (by omega) (by decide), List.map_map]
    refine congrArg (fun l => intCount (List.sum l)) (List.map_congr_left fun a ha => ?_)
    obtain ⟨c, hc⟩ := hshape.exists_node ha
    rw [Function.comp_apply, PatHeap.mlen, hc, PatHeap.key_eq hc]
    exact (h.entry a c hc).2.1

end Count

section Runs

variable [DecidableEq α] {head : α} {data : Option δ} {s : PatHeap α δ} {ops : List (PatOp α δ)}
  {answers : List PatAnswer}

theorem exists_table (hready : StepRun.Along (patStep head) PatOp.Ready (patHead head data, []) ops)
    (hrun : StepRun.run (patStep head) (patHead head data, []) ops = .ok (s, answers)) :
    ∃ T, StepRun.run tableStep (PatTable.start data, []) ops = .ok (T, answers) ∧
      s.Holds head T := by
  have hruns := patRun_refines (patHead_holds head data) hready
  cases hT : StepRun.run tableStep (PatTable.start data, []) ops with
  | error e =>
    rw [hT, hrun] at hruns
    cases hruns
  | ok T =>
    rw [hT, hrun] at hruns
    obtain ⟨s', hs', hholds⟩ := hruns
    rw [Except.ok.injEq, Prod.mk.injEq] at hs'
    obtain ⟨rfl, rfl⟩ := hs'
    exact ⟨T.1, rfl, hholds⟩

/-- A search behind any calls goes through, and answers with a node whose first mask takes the key
to its own, with the node of the key if the table has the key. NULL means that the default entry
lost its mask. -/
theorem pat_search_finds
    (hready : StepRun.Along (patStep head) PatOp.Ready (patHead head data, []) ops)
    (hrun : StepRun.run (patStep head) (patHead head data, []) ops = .ok (s, answers))
    {key : UInt64} (hkey : key.toNat < 2 ^ 32) :
    ∃ T, StepRun.run tableStep (PatTable.start data, []) ops = .ok (T, answers) ∧
      ∃ r, patSearch s key (some head) = .ok r ∧
        (T.masks key ≠ [] → ∃ a, r = some a ∧ s.key a = key) ∧
        (∀ a, r = some a → s.node a ≠ none ∧
          ∃ m ms, T.masks (s.key a) = m :: ms ∧ s.key a = key &&& m.pmMask) ∧
        (r = none → ∃ m ms, T.masks 0 = m :: ms ∧ key &&& m.pmMask ≠ 0) := by
  obtain ⟨T, hT, hholds⟩ := exists_table hready hrun
  exact ⟨T, hT, patSearch_ok hholds hkey⟩

theorem pat_search_finds_threeRoutes : ∃ s a,
    StepRun.run (patStep 0) (patHead 0 (some 10), []) threeRoutes =
      .ok (s, [.inserted (some 0x0a010000), .inserted (some 0x0a000000), .removed 1]) ∧
    patSearch s 0x0a000000 (some 0) = .ok (some a) ∧ s.key a = 0x0a000000 := by
  obtain ⟨s, hrun⟩ := run_threeRoutes
  obtain ⟨T, hT, r, hr, hstored, _⟩ := pat_search_finds ready_threeRoutes hrun
    (show (0x0a000000 : UInt64).toNat < 2 ^ 32 by decide)
  obtain ⟨T', hT', hmasks⟩ : ∃ T',
      StepRun.run tableStep (PatTable.start (some 10), []) threeRoutes = .ok T' ∧
      T'.1.masks 0x0a000000 ≠ [] :=
    ⟨_, rfl, by decide +kernel⟩
  obtain rfl := Except.ok.inj (hT.symm.trans hT')
  obtain ⟨a, rfl, hkey⟩ := hstored hmasks
  exact ⟨s, a, hrun, hr, hkey⟩

/-- `pat_count` is the number of entries that the calls left in the table, and its `int` overflows
exactly when there are 2^31 of them or more. -/
theorem pat_count_entries
    (hready : StepRun.Along (patStep head) PatOp.Ready (patHead head data, []) ops)
    (hrun : StepRun.run (patStep head) (patHead head data, []) ops = .ok (s, answers)) :
    ∃ T, StepRun.run tableStep (PatTable.start data, []) ops = .ok (T, answers) ∧
      ∃ keys : List UInt64, keys.Nodup ∧ (∀ k, k ∈ keys ↔ T.masks k ≠ []) ∧
        patCount s patSteps (some head) (-1) =
          if (keys.map fun k => (T.masks k).length).sum < 2 ^ 31 then
            .ok ((keys.map fun k => (T.masks k).length).sum : Nat)
          else .error .intOverflow := by
  obtain ⟨T, hT, hholds⟩ := exists_table hready hrun
  exact ⟨T, hT, hholds.count⟩

theorem pat_count_entries_threeRoutes : ∃ (s : PatHeap (Fin 8) Nat) (T : PatTable Nat),
    StepRun.run (patStep 0) (patHead 0 (some 10), []) threeRoutes =
      .ok (s, [.inserted (some 0x0a010000), .inserted (some 0x0a000000), .removed 1]) ∧
    ∃ keys : List UInt64, keys.Nodup ∧ (∀ k, k ∈ keys ↔ T.masks k ≠ []) ∧
      patCount s patSteps (some 0) (-1) =
        if (keys.map fun k => (T.masks k).length).sum < 2 ^ 31 then
          .ok ((keys.map fun k => (T.masks k).length).sum : Nat)
        else .error .intOverflow := by
  obtain ⟨s, hrun⟩ := run_threeRoutes
  obtain ⟨T, _, hcount⟩ := pat_count_entries ready_threeRoutes hrun
  exact ⟨s, T, hrun, hcount⟩

end Runs

end LearningSwitch
