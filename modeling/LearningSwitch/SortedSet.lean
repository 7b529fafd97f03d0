import Mathlib.Data.List.Basic
import Mathlib.Order.Lattice

/-- An ordered set: its elements are kept in strictly increasing order. -/
structure SortedSet (α : Type) [LinearOrder α] where
  elems : List α
  sorted : elems.Pairwise (· < ·)

namespace SortedSet

variable {α : Type} [LinearOrder α]

def empty : SortedSet α where
  elems := []
  sorted := List.Pairwise.nil

def insertSorted (a : α) : List α → List α
  | [] => [a]
  | b :: bs => if a < b then a :: b :: bs else if a = b then b :: bs else b :: insertSorted a bs

theorem mem_insertSorted {a x : α} {l : List α} : x ∈ insertSorted a l ↔ x = a ∨ x ∈ l := by
  induction l with
  | nil => simp [insertSorted]
  | cons b bs ih =>
    unfold insertSorted
    split
    next => simp
    next =>
      split
      next he => subst he; simp
      next => simp only [List.mem_cons, ih]; tauto

theorem insertSorted_sorted {a : α} {l : List α} (h : l.Pairwise (· < ·)) :
    (insertSorted a l).Pairwise (· < ·) := by
  induction l with
  | nil => simp [insertSorted]
  | cons b bs ih =>
    obtain ⟨hb, hbs⟩ := List.pairwise_cons.mp h
    unfold insertSorted
    split
    next hlt =>
      refine List.pairwise_cons.mpr ⟨fun x hx => ?_, h⟩
      rcases List.mem_cons.mp hx with rfl | hx
      · exact hlt
      · exact lt_trans hlt (hb x hx)
    next hlt =>
      split
      next => exact h
      next hne =>
        refine List.pairwise_cons.mpr ⟨fun x hx => ?_, ih hbs⟩
        rcases mem_insertSorted.mp hx with rfl | hx
        · exact lt_of_le_of_ne (not_lt.mp hlt) (Ne.symm hne)
        · exact hb x hx

def insert (s : SortedSet α) (a : α) : SortedSet α where
  elems := insertSorted a s.elems
  sorted := insertSorted_sorted s.sorted

@[simp] theorem elems_empty : (empty : SortedSet α).elems = [] := rfl

@[simp] theorem mem_insert {s : SortedSet α} {a x : α} :
    x ∈ (s.insert a).elems ↔ x = a ∨ x ∈ s.elems :=
  mem_insertSorted

end SortedSet
