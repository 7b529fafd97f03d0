import Mathlib.Logic.Function.Basic
import Mathlib.Tactic.ByContra

namespace SpanTiling

/-- The positions `start`, ..., `start + len - 1`. -/
structure Span where
  start : Nat
  len : Nat

variable {τ : Type}

/-- The spans that the holders hold are not empty, do not overlap, and cover the positions from
`lo` to `hi` and no others. -/
structure Tiles (lo hi : Nat) (held : τ → Option Span) : Prop where
  le : lo ≤ hi
  pos : ∀ t s, held t = some s → 0 < s.len
  inside : ∀ t s, held t = some s → lo ≤ s.start ∧ s.start + s.len ≤ hi
  apart : ∀ t u s s', held t = some s → held u = some s' → t ≠ u →
    s.start + s.len ≤ s'.start ∨ s'.start + s'.len ≤ s.start
  cover : ∀ i, lo ≤ i → i < hi → ∃ t s, held t = some s ∧ s.start ≤ i ∧ i < s.start + s.len

namespace Tiles

variable {lo hi n : Nat} {held : τ → Option Span} {t : τ}

theorem empty (lo : Nat) : Tiles lo lo fun _ : τ => none where
  le := by omega
  pos := by simp
  inside := by simp
  apart := by simp
  cover := by omega

/-- The span that starts first starts at `lo`. -/
theorem exists_first (h : Tiles lo hi held) (hlt : lo < hi) :
    ∃ t s, held t = some s ∧ s.start = lo := by
  obtain ⟨t, s, ht, hs, _⟩ := h.cover lo (by omega) hlt
  have hi := h.inside t s ht
  exact ⟨t, s, ht, by omega⟩

theorem eq_of_none (h : Tiles lo hi held) (hnone : ∀ t, held t = none) : lo = hi := by
  by_contra hne
  have hle := h.le
  obtain ⟨t, s, ht, _⟩ := h.exists_first (by omega)
  rw [hnone t] at ht
  cases ht

/-- When nobody else holds a span, the span of `t` is everything. -/
theorem eq_of_single (h : Tiles lo hi held) {s : Span} (ht : held t = some s)
    (others : ∀ u, u ≠ t → held u = none) : s.start = lo ∧ s.start + s.len = hi := by
  have hpos := h.pos t s ht
  obtain ⟨hlo, hhi⟩ := h.inside t s ht
  have owner : ∀ {u s'}, held u = some s' → s' = s := by
    intro u s' hu
    by_cases he : u = t
    · rw [he, ht] at hu
      exact (Option.some.inj hu).symm
    · rw [others u he] at hu
      cases hu
  obtain ⟨u, a, hu, hua, _⟩ := h.cover lo (by omega) (by omega)
  obtain ⟨v, b, hv, _, hvb⟩ := h.cover (hi - 1) (by omega) (by omega)
  have := owner hu
  have := owner hv
  subst a
  subst b
  omega

section Update

variable [DecidableEq τ]

/-- A holder takes the positions just behind those taken. -/
theorem reserve (h : Tiles lo hi held) (hn : held t = none) (hpos : 0 < n) :
    Tiles lo (hi + n) (Function.update held t (some ⟨hi, n⟩)) where
  le := by have := h.le; omega
  pos u s hu := by
    by_cases he : u = t
    · subst u
      simp at hu
      subst s
      exact hpos
    · exact h.pos u s (by simpa [he] using hu)
  inside u s hu := by
    have := h.le
    by_cases he : u = t
    · subst u
      simp at hu
      subst s
      simp only
      omega
    · have := h.inside u s (by simpa [he] using hu)
      omega
  apart u v s s' hu hv huv := by
    by_cases heu : u = t
    · subst u
      simp at hu
      subst s
      have := h.inside v s' (by simpa [Ne.symm huv] using hv)
      simp only
      omega
    · have hus : held u = some s := by simpa [heu] using hu
      by_cases hev : v = t
      · subst v
        simp at hv
        subst s'
        have := h.inside u s hus
        simp only
        omega
      · exact h.apart u v s s' hus (by simpa [hev] using hv) huv
  cover i hlo hhi := by
    by_cases hi' : i < hi
    · obtain ⟨u, s, hu, hs⟩ := h.cover i hlo hi'
      have he : u ≠ t := by
        intro he
        rw [he, hn] at hu
        cases hu
      exact ⟨u, s, by simpa [he] using hu, hs⟩
    · exact ⟨t, ⟨hi, n⟩, by simp, by simp only; omega, by simp only; omega⟩

/-- The holder of the first span gives it back. -/
theorem release (h : Tiles lo hi held) (ht : held t = some ⟨lo, n⟩) :
    Tiles (lo + n) hi (Function.update held t none) where
  le := (h.inside t _ ht).2
  pos u s hu := by
    by_cases he : u = t
    · simp [he] at hu
    · exact h.pos u s (by simpa [he] using hu)
  inside u s hu := by
    by_cases he : u = t
    · simp [he] at hu
    · have hus : held u = some s := by simpa [he] using hu
      have hin := h.inside u s hus
      have hpos := h.pos u s hus
      have hap := h.apart t u _ s ht hus (Ne.symm he)
      simp only at hap
      omega
  apart u v s s' hu hv huv := by
    by_cases heu : u = t
    · simp [heu] at hu
    · by_cases hev : v = t
      · simp [hev] at hv
      · exact h.apart u v s s' (by simpa [heu] using hu) (by simpa [hev] using hv) huv
  cover i hlo hhi := by
    obtain ⟨u, s, hu, hs⟩ := h.cover i (by omega) hhi
    have he : u ≠ t := by
      intro he
      rw [he, ht] at hu
      cases hu
      simp only at hs
      omega
    exact ⟨u, s, by simpa [he] using hu, hs⟩

end Update

end Tiles

end SpanTiling
