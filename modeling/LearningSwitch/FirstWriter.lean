import Mathlib.Logic.Function.Basic
import Mathlib.Data.List.Basic

namespace FirstWriter

variable {α β : Type} [DecidableEq α]

def insertNew (t : α → Option β) (e : α × β) : α → Option β :=
  match t e.1 with
  | some _ => t
  | none => Function.update t e.1 (some e.2)

def first (es : List (α × β)) (k : α) : Option β :=
  (es.find? fun e => e.1 = k).map Prod.snd

theorem insertNew_self (t : α → Option β) (e : α × β) :
    insertNew t e e.1 = (t e.1).or (some e.2) := by
  unfold insertNew
  cases h : t e.1 with
  | none => simp
  | some v => simp [h]

theorem insertNew_ne (t : α → Option β) (e : α × β) {k : α} (hk : k ≠ e.1) :
    insertNew t e k = t k := by
  unfold insertNew
  cases t e.1 with
  | none => simp [hk]
  | some v => rfl

/-- What is stored stays; a free key takes the first value offered for it. -/
theorem foldl_insertNew (es : List (α × β)) (t : α → Option β) (k : α) :
    es.foldl insertNew t k = (t k).or (first es k) := by
  induction es generalizing t with
  | nil => simp [first]
  | cons e es ih =>
    rw [List.foldl_cons, ih]
    by_cases hk : e.1 = k
    · subst hk
      rw [insertNew_self]
      cases t e.1 <;> simp [first]
    · rw [insertNew_ne t e (Ne.symm hk)]
      simp [first, hk]

theorem first_snoc (es : List (α × β)) (e : α × β) :
    first (es ++ [e]) = insertNew (first es) e := by
  have hfold : ∀ fs : List (α × β), first fs = fs.foldl insertNew fun _ => none := by
    intro fs
    funext k
    rw [foldl_insertNew, Option.none_or]
  rw [hfold, hfold, List.foldl_append]
  rfl

theorem mem_of_first {es : List (α × β)} {k : α} {v : β} (h : first es k = some v) :
    (k, v) ∈ es := by
  obtain ⟨e, he, rfl⟩ := Option.map_eq_some_iff.mp h
  have hk : e.1 = k := by simpa using List.find?_some he
  rw [← hk]
  exact List.mem_of_find?_eq_some he

theorem first_eq_none {es : List (α × β)} {k : α} : first es k = none ↔ ∀ e ∈ es, e.1 ≠ k := by
  simp [first]

end FirstWriter
