import Mathlib.Data.List.Basic
import Mathlib.Logic.Relation

namespace LinkedChain

variable {ι σ : Type}

/-- Following `next` from `p` visits exactly `l` and then meets null. -/
def Chain (next : ι → Option ι) : Option ι → List ι → Prop
  | p, [] => p = none
  | p, x :: xs => p = some x ∧ Chain next (next x) xs

def Reaches (next : ι → Option ι) : ι → ι → Prop :=
  Relation.TransGen fun x y => next x = some y

theorem Chain.congr {next next' : ι → Option ι} {p : Option ι} {l : List ι}
    (same : ∀ x ∈ l, next' x = next x) (h : Chain next p l) : Chain next' p l := by
  induction l generalizing p with
  | nil => exact h
  | cons x xs ih =>
    refine ⟨h.1, ?_⟩
    rw [same x (by simp)]
    exact ih (fun y hy => same y (by simp [hy])) h.2

theorem Chain.head {next : ι → Option ι} {x : ι} {l : List ι} (h : Chain next (some x) l) :
    ∃ xs, l = x :: xs ∧ Chain next (next x) xs := by
  cases l with
  | nil => exact absurd h (by simp [Chain])
  | cons y ys =>
    obtain rfl : x = y := by simpa using h.1
    exact ⟨ys, rfl, h.2⟩

theorem Chain.unique {next : ι → Option ι} {p : Option ι} {l l' : List ι}
    (h : Chain next p l) (h' : Chain next p l') : l = l' := by
  induction l generalizing p l' with
  | nil =>
    cases h
    cases l' with
    | nil => rfl
    | cons y ys => exact absurd h'.1 (by simp)
  | cons x xs ih =>
    rw [h.1] at h'
    obtain ⟨ys, rfl, hy⟩ := h'.head
    rw [ih h.2 hy]

theorem Chain.reaches_mem {next : ι → Option ι} {x y : ι} {l : List ι}
    (h : Chain next (next x) l) (hr : Reaches next x y) : y ∈ l := by
  induction hr using Relation.TransGen.head_induction_on generalizing l with
  | single hs =>
    rw [hs] at h
    obtain ⟨xs, rfl, _⟩ := h.head
    simp
  | head hs _ ih =>
    rw [hs] at h
    obtain ⟨xs, rfl, hx⟩ := h.head
    exact List.mem_cons_of_mem _ (ih hx)

theorem Chain.suffix_of_mem {next : ι → Option ι} {p : Option ι} {y : ι} {l : List ι}
    (h : Chain next p l) (hy : y ∈ l) : ∃ l', l' <:+ l ∧ Chain next (some y) l' := by
  induction l generalizing p with
  | nil => simp at hy
  | cons x xs ih =>
    rcases List.mem_cons.mp hy with rfl | hy
    · exact ⟨y :: xs, List.suffix_refl _, rfl, h.2⟩
    · obtain ⟨l', hs, hl⟩ := ih h.2 hy
      exact ⟨l', hs.trans (List.suffix_cons x xs), hl⟩

/-- A chain that ends never returns to a node it has left. -/
theorem Chain.nodup {next : ι → Option ι} {p : Option ι} {l : List ι} (h : Chain next p l) :
    l.Nodup := by
  induction l generalizing p with
  | nil => exact List.nodup_nil
  | cons x xs ih =>
    refine List.nodup_cons.mpr ⟨fun hx => ?_, ih h.2⟩
    obtain ⟨l', hs, hl⟩ := h.2.suffix_of_mem hx
    have hsame : x :: xs = l' := by
      have hx' := h
      rw [h.1] at hx'
      exact hx'.unique hl
    have hlen := hs.length_le
    rw [← hsame] at hlen
    simp only [List.length_cons] at hlen
    omega

/-- A loop over a chain that reads each link before visiting the node; `fuel` bounds the
number of nodes visited. -/
def walk (nextOf : σ → ι → Option ι) (visit : σ → ι → σ) : Nat → σ → Option ι → σ
  | 0, s, _ => s
  | _ + 1, s, none => s
  | fuel + 1, s, some x => walk nextOf visit fuel (visit s x) (nextOf s x)

/-- When visiting keeps the links, the loop is a fold over the chain. -/
theorem walk_eq_foldl {nextOf : σ → ι → Option ι} {visit : σ → ι → σ}
    (keeps : ∀ s x, nextOf (visit s x) = nextOf s) {s : σ} {p : Option ι} {l : List ι}
    (h : Chain (nextOf s) p l) {fuel : Nat} (hf : l.length ≤ fuel) :
    walk nextOf visit fuel s p = l.foldl visit s := by
  induction l generalizing s p fuel with
  | nil =>
    cases h
    cases fuel with
    | zero => rfl
    | succ fuel => rfl
  | cons x xs ih =>
    cases fuel with
    | zero => simp at hf
    | succ fuel =>
      obtain ⟨rfl, hx⟩ := h
      have hx' : Chain (nextOf (visit s x)) (nextOf s x) xs := by rw [keeps]; exact hx
      exact ih hx' (by simpa using hf)

/-- The first nodes of a chain, at most `fuel` of them. -/
def collect (next : ι → Option ι) : Nat → Option ι → List ι
  | 0, _ => []
  | _ + 1, none => []
  | fuel + 1, some x => x :: collect next fuel (next x)

theorem Chain.collect_eq {next : ι → Option ι} {p : Option ι} {l : List ι} (h : Chain next p l)
    {fuel : Nat} (hf : l.length ≤ fuel) : collect next fuel p = l := by
  induction l generalizing p fuel with
  | nil =>
    cases h
    cases fuel with
    | zero => rfl
    | succ fuel => rfl
  | cons x xs ih =>
    cases fuel with
    | zero => simp at hf
    | succ fuel =>
      obtain ⟨rfl, hx⟩ := h
      rw [collect, ih hx (by simpa using hf)]

end LinkedChain
