import Mathlib.Algebra.Group.Nat.Defs
import Mathlib.Algebra.Ring.Int.Defs
import Mathlib.Data.List.Basic

namespace CNumber

/-- A string of C, without the null byte that ends it. -/
structure CString where
  bytes : List UInt8
  noNul : 0 ∉ bytes

/-- What a pointer to the rest of a string points to: the null byte behind the last. -/
def deref (rest : List UInt8) : UInt8 :=
  rest.headD 0

/-- `isspace` in the C locale. -/
def isSpace (c : UInt8) : Bool :=
  c = 32 || (9 ≤ c && c ≤ 13)

/-- Digits and letters of either case; 36 stands for any other character. -/
def digitValue (c : UInt8) : Nat :=
  if 48 ≤ c ∧ c ≤ 57 then c.toNat - 48
  else if 97 ≤ c ∧ c ≤ 122 then c.toNat - 87
  else if 65 ≤ c ∧ c ≤ 90 then c.toNat - 55
  else 36

def isDigit (base : Nat) (c : UInt8) : Bool :=
  digitValue c < base

def takeSign : List UInt8 → Bool × List UInt8
  | c :: cs => if c = 45 then (true, cs) else if c = 43 then (false, cs) else (false, c :: cs)
  | [] => (false, [])

/-- In base 16 a `0x` or `0X` is skipped where a digit follows it. -/
def dropHexMark (base : Nat) : List UInt8 → List UInt8
  | z :: x :: d :: cs =>
    if base = 16 ∧ z = 48 ∧ (x = 120 ∨ x = 88) ∧ isDigit 16 d then d :: cs else z :: x :: d :: cs
  | cs => cs

def magnitude (base : Nat) (digits : List UInt8) : Nat :=
  digits.foldl (fun v c => base * v + digitValue c) 0

/-- The number that `strtol` and `strtoul` convert, before its range is looked at. -/
structure Subject where
  negative : Bool
  magnitude : Nat
  rest : List UInt8

/-- The digits to convert: after white space, a sign and the mark of base 16. -/
def digitsFrom (base : Nat) (s : List UInt8) : List UInt8 :=
  dropHexMark base (takeSign (s.dropWhile isSpace)).2

def subject (base : Nat) (s : List UInt8) : Option Subject :=
  let digits := (digitsFrom base s).takeWhile (isDigit base)
  if digits = [] then none
  else some {
    negative := (takeSign (s.dropWhile isSpace)).1
    magnitude := magnitude base digits
    rest := (digitsFrom base s).dropWhile (isDigit base) }

def Subject.value (t : Subject) : Int :=
  if t.negative then -t.magnitude else t.magnitude

/-- `strtoul` with a 64-bit result: without a number it converts nothing, a number out of range
becomes the largest, and a minus sign negates in the type of the result. -/
def strtoul (s : CString) (base : Nat) : UInt64 × List UInt8 :=
  match subject base s.bytes with
  | none => (0, s.bytes)
  | some t =>
    (if 2 ^ 64 ≤ t.magnitude then .ofNat (2 ^ 64 - 1)
      else if t.negative then -(.ofNat t.magnitude) else .ofNat t.magnitude, t.rest)

/-- `strtol` with a 64-bit result, saturated at both ends of its range. -/
def strtol (s : CString) (base : Nat) : Int64 × List UInt8 :=
  match subject base s.bytes with
  | none => (0, s.bytes)
  | some t => (.ofInt (max (-2 ^ 63) (min (2 ^ 63 - 1) t.value)), t.rest)

/-- The integer that the whole string denotes. -/
def denotes (base : Nat) (s : CString) : Option Int :=
  match subject base s.bytes with
  | none => none
  | some t => if t.rest = [] then some t.value else none

theorem takeSign_suffix (s : List UInt8) : (takeSign s).2 <:+ s := by
  cases s with
  | nil => exact List.suffix_refl []
  | cons c cs =>
    show (if c = 45 then (true, cs) else if c = 43 then (false, cs) else (false, c :: cs)).2 <:+ _
    split
    next => exact List.suffix_cons c cs
    next =>
      split
      next => exact List.suffix_cons c cs
      next => exact List.suffix_refl (c :: cs)

theorem dropHexMark_suffix (base : Nat) (s : List UInt8) : dropHexMark base s <:+ s := by
  unfold dropHexMark
  split
  next z x d cs =>
    split
    next => exact ⟨[z, x], rfl⟩
    next => exact List.suffix_refl _
  next => exact List.suffix_refl _

theorem subject_suffix {base : Nat} {s : List UInt8} {t : Subject} (h : subject base s = some t) :
    t.rest <:+ s := by
  unfold subject at h
  simp only at h
  split at h
  next => cases h
  next =>
    cases h
    exact (List.dropWhile_suffix _).trans ((dropHexMark_suffix base _).trans
      ((takeSign_suffix _).trans (List.dropWhile_suffix _)))

theorem deref_eq_zero_iff {s : CString} {rest : List UInt8} (h : rest <:+ s.bytes) :
    deref rest = 0 ↔ rest = [] := by
  cases rest with
  | nil => exact ⟨fun _ => rfl, fun _ => rfl⟩
  | cons c cs =>
    constructor
    · intro hc
      have hmem : c ∈ s.bytes := h.subset (List.mem_cons_self ..)
      exact absurd (show c = 0 from hc) fun he => s.noNul (he ▸ hmem)
    · intro hnil
      cases hnil

theorem strtoul_suffix (s : CString) (base : Nat) : (strtoul s base).2 <:+ s.bytes := by
  unfold strtoul
  split
  next => exact List.suffix_refl s.bytes
  next t h => exact subject_suffix h

theorem strtol_suffix (s : CString) (base : Nat) : (strtol s base).2 <:+ s.bytes := by
  unfold strtol
  split
  next => exact List.suffix_refl s.bytes
  next t h => exact subject_suffix h

/-- A nonempty string that `strtol` consumes entirely denotes an integer, and no other does. -/
theorem denotes_isSome_iff (s : CString) (base : Nat) :
    (denotes base s).isSome ↔ s.bytes ≠ [] ∧ (strtol s base).2 = [] := by
  unfold denotes strtol
  cases h : subject base s.bytes with
  | none => simp
  | some t =>
    by_cases hrest : t.rest = []
    · have hne : s.bytes ≠ [] := by
        intro he
        rw [he] at h
        cases h
      simp [hrest, hne]
    · simp [hrest]

/-- The result of `strtol` is the integer denoted, brought into the range of the type. -/
theorem strtol_of_denotes {s : CString} {base : Nat} {d : Int} (h : denotes base s = some d) :
    (strtol s base).1.toInt = max (-2 ^ 63) (min (2 ^ 63 - 1) d) := by
  unfold denotes at h
  unfold strtol
  split at h
  next => cases h
  next t _ =>
    split at h
    next =>
      obtain rfl := Option.some.inj h
      exact Int64.toInt_ofInt_of_le (by omega) (by omega)
    next => cases h

end CNumber
