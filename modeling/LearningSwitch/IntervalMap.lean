import Mathlib.Data.List.Basic
import Mathlib.Data.List.Pairwise
import Mathlib.Order.Lattice

namespace IntervalMap

/-- A closed interval with the value that a map holds, or is given, on it. -/
structure Segment (κ β : Type) where
  lower : κ
  upper : κ
  value : β

variable {κ β : Type} [LinearOrder κ]

def Segment.Contains (s : Segment κ β) (k : κ) : Prop :=
  s.lower ≤ k ∧ k ≤ s.upper

instance (s : Segment κ β) (k : κ) : Decidable (s.Contains k) :=
  inferInstanceAs (Decidable (s.lower ≤ k ∧ k ≤ s.upper))

theorem contains_mk {lo hi k : κ} {v : β} :
    (⟨lo, hi, v⟩ : Segment κ β).Contains k ↔ lo ≤ k ∧ k ≤ hi :=
  Iff.rfl

def lookup (segs : List (Segment κ β)) (k : κ) : Option β :=
  (segs.find? fun s => s.Contains k).map Segment.value

/-- The segments from the one that contains the key to the last. -/
def seek (segs : List (Segment κ β)) (k : κ) : List (Segment κ β) :=
  segs.dropWhile fun s => !decide (s.Contains k)

structure Ordered (segs : List (Segment κ β)) : Prop where
  nonempty : ∀ s ∈ segs, s.lower ≤ s.upper
  apart : segs.Pairwise fun s t => s.upper < t.lower

theorem Ordered.tail {s : Segment κ β} {segs : List (Segment κ β)} (h : Ordered (s :: segs)) :
    Ordered segs where
  nonempty := fun t ht => h.nonempty t (List.mem_cons_of_mem s ht)
  apart := (List.pairwise_cons.mp h.apart).2

theorem Ordered.after {s t : Segment κ β} {segs : List (Segment κ β)} (h : Ordered (s :: segs))
    (ht : t ∈ segs) : s.upper < t.lower :=
  (List.pairwise_cons.mp h.apart).1 t ht

@[simp] theorem lookup_nil (k : κ) : lookup ([] : List (Segment κ β)) k = none := rfl

theorem lookup_cons_of_contains {s : Segment κ β} {k : κ} (h : s.Contains k)
    (segs : List (Segment κ β)) : lookup (s :: segs) k = some s.value := by
  simp [lookup, h]

theorem lookup_cons_of_not {s : Segment κ β} {k : κ} (h : ¬s.Contains k)
    (segs : List (Segment κ β)) : lookup (s :: segs) k = lookup segs k := by
  simp [lookup, h]

theorem exists_of_lookup {segs : List (Segment κ β)} {k : κ} {v : β}
    (h : lookup segs k = some v) : ∃ s ∈ segs, s.Contains k ∧ s.value = v := by
  obtain ⟨s, hfind, hv⟩ := Option.map_eq_some_iff.mp h
  exact ⟨s, List.mem_of_find?_eq_some hfind, by simpa using List.find?_some hfind, hv⟩

theorem Ordered.lookup_lower {segs : List (Segment κ β)} (h : Ordered segs) {t : Segment κ β}
    (ht : t ∈ segs) : lookup segs t.lower = some t.value := by
  induction segs with
  | nil => simp at ht
  | cons s segs ih =>
    rcases List.mem_cons.mp ht with rfl | hmem
    · exact lookup_cons_of_contains ⟨le_rfl, h.nonempty t ht⟩ segs
    · have hout : ¬s.Contains t.lower := fun hc => absurd hc.2 (not_le.mpr (h.after hmem))
      rw [lookup_cons_of_not hout]
      exact ih h.tail hmem

theorem Ordered.lookup_below {s : Segment κ β} {segs : List (Segment κ β)} (h : Ordered (s :: segs))
    {k : κ} (hk : k < s.lower) : lookup (s :: segs) k = none := by
  cases hl : lookup (s :: segs) k with
  | none => rfl
  | some v =>
    obtain ⟨t, ht, hc, _⟩ := exists_of_lookup hl
    have hle : s.lower ≤ t.lower := by
      rcases List.mem_cons.mp ht with rfl | ht
      · exact le_rfl
      · exact (h.nonempty s (by simp)).trans (h.after ht).le
    exact absurd (hk.trans_le (hle.trans hc.1)) (lt_irrefl k)

theorem seek_eq_nil_iff {segs : List (Segment κ β)} {k : κ} :
    seek segs k = [] ↔ lookup segs k = none := by
  induction segs with
  | nil => simp [seek]
  | cons s segs ih =>
    by_cases hs : s.Contains k
    · simp [seek, hs, lookup_cons_of_contains hs]
    · simpa [seek, hs, lookup_cons_of_not hs] using ih

/-- Walking from the segment of a key to the end meets the values held at that key and above. -/
theorem Ordered.mem_seek {segs : List (Segment κ β)} (h : Ordered segs) {k : κ}
    (hk : lookup segs k ≠ none) (v : β) :
    (∃ s ∈ seek segs k, s.value = v) ↔ ∃ key, k ≤ key ∧ lookup segs key = some v := by
  induction segs with
  | nil => exact absurd rfl hk
  | cons s segs ih =>
    by_cases hs : s.Contains k
    · have hseek : seek (s :: segs) k = s :: segs := by simp [seek, hs]
      rw [hseek]
      constructor
      · intro hmem
        obtain ⟨t, ht, rfl⟩ := hmem
        rcases List.mem_cons.mp ht with rfl | hmem
        · exact ⟨k, le_rfl, lookup_cons_of_contains hs segs⟩
        · exact ⟨t.lower, hs.2.trans (h.after hmem).le, h.lookup_lower ht⟩
      · intro hany
        obtain ⟨key, _, hv⟩ := hany
        obtain ⟨t, ht, _, hv⟩ := exists_of_lookup hv
        exact ⟨t, ht, hv⟩
    · have hseek : seek (s :: segs) k = seek segs k := by simp [seek, hs]
      rw [lookup_cons_of_not hs] at hk
      obtain ⟨w, hw⟩ := Option.ne_none_iff_exists'.mp hk
      obtain ⟨t, ht, hkt, _⟩ := exists_of_lookup hw
      -- the segment of `k` lies above `s`, so every key from `k` on does
      have habove : ∀ key, k ≤ key → ¬s.Contains key := fun key hkey hc =>
        absurd (hc.2.trans_lt (h.after ht)) (not_lt.mpr (hkt.1.trans hkey))
      rw [hseek, ih h.tail hk]
      constructor
      · intro h
        obtain ⟨key, hkey, hv⟩ := h
        exact ⟨key, hkey, (lookup_cons_of_not (habove key hkey) segs).trans hv⟩
      · intro h
        obtain ⟨key, hkey, hv⟩ := h
        exact ⟨key, hkey, (lookup_cons_of_not (habove key hkey) segs).symm.trans hv⟩

/-- An implementation of interval maps. `find` gives what an iterator walks over from the found
segment to the end, and nothing for the end iterator itself. -/
structure Lib (κ β : Type) where
  Map : Type
  empty : Map
  insert : Map → Segment κ β → Map
  segments : Map → List (Segment κ β)
  find : Map → κ → List (Segment κ β)

/-- What inserting a piece can give a key that has no value yet: the identity adds nothing. -/
def gain [Zero β] [DecidableEq β] (k : κ) (piece : Segment κ β) : Option β :=
  if piece.Contains k ∧ piece.value ≠ 0 then some piece.value else none

namespace Lib

def insertAll (lib : Lib κ β) (pieces : List (Segment κ β)) : lib.Map :=
  pieces.foldl lib.insert lib.empty

/-- `insert` fills only the keys that have no value yet, and iteration is in the order of keys. -/
structure Documented [Zero β] [DecidableEq β] (lib : Lib κ β) : Prop where
  segments_empty : lib.segments lib.empty = []
  ordered : ∀ m, Ordered (lib.segments m)
  lookup_insert : ∀ m piece k, lookup (lib.segments (lib.insert m piece)) k =
    (lookup (lib.segments m) k).or (gain k piece)
  find_eq : ∀ m k, lib.find m k = seek (lib.segments m) k

/-- `find` walks only over values that were inserted. -/
def Stores (lib : Lib κ β) : Prop :=
  ∀ pieces k, ∀ s ∈ lib.find (lib.insertAll pieces) k, ∃ piece ∈ pieces, piece.value = s.value

variable [Zero β] [DecidableEq β] {lib : Lib κ β}

/-- Every key keeps the value of the first piece that covered it. -/
theorem Documented.lookup_insertAll (h : lib.Documented) (pieces : List (Segment κ β)) (k : κ) :
    lookup (lib.segments (lib.insertAll pieces)) k = pieces.findSome? (gain k) := by
  have hrun : ∀ m, lookup (lib.segments (pieces.foldl lib.insert m)) k =
      (lookup (lib.segments m) k).or (pieces.findSome? (gain k)) := by
    induction pieces with
    | nil => simp
    | cons piece pieces ih =>
      intro m
      rw [List.foldl_cons, ih, h.lookup_insert, Option.or_assoc, List.findSome?_cons]
      cases gain k piece <;> rfl
  rw [insertAll, hrun, h.segments_empty, lookup_nil, Option.none_or]

theorem Documented.find_eq_nil_iff (h : lib.Documented) {pieces : List (Segment κ β)} {k : κ} :
    lib.find (lib.insertAll pieces) k = [] ↔ pieces.findSome? (gain k) = none := by
  rw [h.find_eq, seek_eq_nil_iff, h.lookup_insertAll]

theorem Documented.mem_find (h : lib.Documented) {pieces : List (Segment κ β)} {k : κ}
    (hk : pieces.findSome? (gain k) ≠ none) (v : β) :
    (∃ s ∈ lib.find (lib.insertAll pieces) k, s.value = v) ↔
      ∃ key, k ≤ key ∧ pieces.findSome? (gain key) = some v := by
  rw [h.find_eq, (h.ordered _).mem_seek (by rwa [h.lookup_insertAll])]
  simp only [h.lookup_insertAll]

theorem Documented.stores (h : lib.Documented) : lib.Stores := by
  intro pieces k s hs
  have hk : pieces.findSome? (gain k) ≠ none := by
    intro hnone
    rw [h.find_eq_nil_iff.mpr hnone] at hs
    simp at hs
  obtain ⟨key, _, hv⟩ := (h.mem_find hk s.value).mp ⟨s, hs, rfl⟩
  obtain ⟨piece, hpiece, hgain⟩ := List.exists_of_findSome?_eq_some hv
  refine ⟨piece, hpiece, ?_⟩
  unfold gain at hgain
  split at hgain
  next => exact Option.some.inj hgain
  next => cases hgain

end Lib

section GapFilling

/-- The piece `[lo, hi]` cut to the gaps between the segments. -/
def fill (v : β) (lo hi : Nat) : List (Segment Nat β) → List (Segment Nat β)
  | [] => if lo ≤ hi then [⟨lo, hi, v⟩] else []
  | s :: segs =>
    if hi < s.lower then
      if lo ≤ hi then ⟨lo, hi, v⟩ :: s :: segs else s :: segs
    else if lo < s.lower then
      ⟨lo, s.lower - 1, v⟩ :: s :: fill v (s.upper + 1) hi segs
    else s :: fill v (max lo (s.upper + 1)) hi segs

theorem fill_above {v : β} {b lo hi : Nat} {segs : List (Segment Nat β)} (hlo : b < lo)
    (h : ∀ s ∈ segs, b < s.lower ∧ s.lower ≤ s.upper) : ∀ s ∈ fill v lo hi segs, b < s.lower := by
  induction segs generalizing lo with
  | nil =>
    intro s hs
    unfold fill at hs
    split at hs
    next => rw [List.mem_singleton.mp hs]; exact hlo
    next => simp at hs
  | cons t segs ih =>
    obtain ⟨ht, htu⟩ := h t (by simp)
    have hrest := fun s hs => h s (List.mem_cons_of_mem t hs)
    intro s hs
    unfold fill at hs
    split at hs
    next =>
      split at hs
      next =>
        rcases List.mem_cons.mp hs with rfl | hs
        · exact hlo
        · exact (h s hs).1
      next => exact (h s hs).1
    next =>
      split at hs
      next =>
        rcases List.mem_cons.mp hs with rfl | hs
        · exact hlo
        · rcases List.mem_cons.mp hs with rfl | hs
          · exact ht
          · exact ih (by omega) hrest s hs
      next =>
        rcases List.mem_cons.mp hs with rfl | hs
        · exact ht
        · exact ih (by omega) hrest s hs

theorem fill_ordered {v : β} {lo hi : Nat} {segs : List (Segment Nat β)} (h : Ordered segs) :
    Ordered (fill v lo hi segs) := by
  induction segs generalizing lo with
  | nil =>
    unfold fill
    split
    next hle => exact ⟨by simpa using hle, List.pairwise_singleton _ _⟩
    next => exact h
  | cons s segs ih =>
    have hs := h.nonempty s (by simp)
    have hbelow : ∀ b, ∀ t ∈ fill v (max b (s.upper + 1)) hi segs, s.upper < t.lower := fun b =>
      fill_above (by omega) fun t ht => ⟨h.after ht, h.nonempty t (List.mem_cons_of_mem s ht)⟩
    have hcons : ∀ b, Ordered (s :: fill v (max b (s.upper + 1)) hi segs) := fun b =>
      ⟨by simpa [hs] using (ih h.tail).nonempty,
        List.pairwise_cons.mpr ⟨hbelow b, (ih h.tail).apart⟩⟩
    have hfront : ∀ {b} {rest : List (Segment Nat β)}, lo ≤ b → b < s.lower → Ordered (s :: rest) →
        Ordered (⟨lo, b, v⟩ :: s :: rest) := by
      intro b rest hle hlt hrest
      refine ⟨by simpa [hle] using hrest.nonempty,
        List.pairwise_cons.mpr ⟨fun t ht => ?_, hrest.apart⟩⟩
      rcases List.mem_cons.mp ht with rfl | ht
      · exact hlt
      · have hafter := hrest.after ht
        show b < t.lower
        omega
    unfold fill
    split
    next hhi =>
      split
      next hle => exact hfront hle hhi h
      next => exact h
    next =>
      split
      next hlo => exact hfront (by omega) (by omega) (by simpa using hcons 0)
      next => exact hcons lo

theorem lookup_fill {v : β} {lo hi : Nat} {segs : List (Segment Nat β)} (h : Ordered segs)
    (k : Nat) : lookup (fill v lo hi segs) k =
      (lookup segs k).or (if lo ≤ k ∧ k ≤ hi then some v else none) := by
  induction segs generalizing lo with
  | nil =>
    unfold fill
    split
    next =>
      by_cases hc : lo ≤ k ∧ k ≤ hi
      · rw [lookup_cons_of_contains (contains_mk.mpr hc), if_pos hc, lookup_nil, Option.none_or]
      · rw [lookup_cons_of_not (mt contains_mk.mp hc), if_neg hc, Option.or_none]
    next => rw [if_neg (by omega), lookup_nil, Option.or_none]
  | cons s segs ih =>
    have hs := h.nonempty s (by simp)
    have hpast : ∀ b, (¬s.Contains k → (b ≤ k ∧ k ≤ hi ↔ lo ≤ k ∧ k ≤ hi)) →
        lookup (s :: fill v b hi segs) k = (lookup (s :: segs) k).or
          (if lo ≤ k ∧ k ≤ hi then some v else none) := by
      intro b hiff
      by_cases hk : s.Contains k
      · rw [lookup_cons_of_contains hk, lookup_cons_of_contains hk, Option.some_or]
      · rw [lookup_cons_of_not hk, lookup_cons_of_not hk, ih h.tail]
        simp only [hiff hk]
    have hfront : ∀ b (rest : List (Segment Nat β)), b ≤ hi → b < s.lower → lo ≤ k → k ≤ b →
        lookup (⟨lo, b, v⟩ :: s :: rest) k = (lookup (s :: segs) k).or
          (if lo ≤ k ∧ k ≤ hi then some v else none) := by
      intro b rest hb hlt hlo hk
      rw [lookup_cons_of_contains ⟨hlo, hk⟩, h.lookup_below (by omega), if_pos ⟨hlo, by omega⟩,
        Option.none_or]
    unfold fill
    split
    next hhi =>
      split
      next hle =>
        by_cases hc : lo ≤ k ∧ k ≤ hi
        · exact hfront hi segs le_rfl hhi hc.1 hc.2
        · rw [lookup_cons_of_not (mt contains_mk.mp hc), if_neg hc, Option.or_none]
      next => rw [if_neg (by omega), Option.or_none]
    next hhi =>
      split
      next hlo =>
        by_cases hc : lo ≤ k ∧ k ≤ s.lower - 1
        · exact hfront (s.lower - 1) _ (by omega) (by omega) hc.1 hc.2
        · rw [lookup_cons_of_not (mt contains_mk.mp hc)]
          refine hpast (s.upper + 1) fun hk => ?_
          unfold Segment.Contains at hk
          omega
      next hlo =>
        refine hpast (max lo (s.upper + 1)) fun hk => ?_
        unfold Segment.Contains at hk
        omega

variable [Zero β] [DecidableEq β]

/-- A map as its list of segments. -/
def gapFilling : Lib Nat β where
  Map := { segs : List (Segment Nat β) // Ordered segs }
  empty := ⟨[], ⟨by simp, List.Pairwise.nil⟩⟩
  insert m piece :=
    if piece.value = 0 then m
    else ⟨fill piece.value piece.lower piece.upper m.1, fill_ordered m.2⟩
  segments m := m.1
  find m k := seek m.1 k

theorem gapFilling_documented : (gapFilling : Lib Nat β).Documented where
  segments_empty := rfl
  ordered := fun m => m.2
  lookup_insert := by
    intro m piece k
    by_cases hz : piece.value = 0
    · simp [gapFilling, gain, hz]
    · simp [gapFilling, gain, hz, lookup_fill m.2, Segment.Contains]
  find_eq := fun _ _ => rfl

end GapFilling

end IntervalMap
