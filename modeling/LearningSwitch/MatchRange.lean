import LearningSwitch.Classifier
import LearningSwitch.IntervalMap
import Mathlib.Data.Nat.Digits.Defs

namespace LearningSwitch

/-- The bytes of `boost::uint_t<SizeT * 8>::least`. -/
def Match.integralBytes (M : Match) : Nat :=
  if M.sizeT ≤ 1 then 1 else if M.sizeT ≤ 2 then 2 else if M.sizeT ≤ 4 then 4 else 8

abbrev IntegralType (M : Match) := Fin (256 ^ M.integralBytes)

/-- The two ends of a closed range. -/
abbrev RangeKeyType (M : Match) := IntegralType M × IntegralType M

abbrev IntervalLib := IntervalMap.Lib Nat Nat

/-- `struct MatchRange<Match>` over an implementation of `interval_map`. -/
structure MatchRange (lib : IntervalLib) (M : Match) where
  interval : lib.Map

/-- The value of an integer from its bytes, the lowest first. -/
def integer {n : Nat} (bytes : Fin n → UInt8) : Nat :=
  Nat.ofDigits 256 ((List.ofFn bytes).map UInt8.toNat)

/-- `memcpy(&field, packet, SizeT)` into the local integer. -/
def copyInteger {M : Match} (field : Fin M.integralBytes → UInt8) (packet : Packet) :
    Fin M.integralBytes → UInt8 :=
  fun i => if i.val < M.sizeT then packet (M.offsetT + i) else field i

namespace MatchRange

variable {lib : IntervalLib} {M : Match}

def empty : MatchRange lib M where
  interval := lib.empty

def addRule (s : MatchRange lib M) (ruleNb : Nat) (range : RangeKeyType M) : MatchRange lib M where
  interval := lib.insert s.interval ⟨range.1, range.2, ruleNb⟩

/-- `field` holds the bytes of the uninitialised local integer on entry. -/
def find (s : MatchRange lib M) (field : Fin M.integralBytes → UInt8) (_myBitset bitset : BitSetT)
    (packet : Packet) : Except Fault (Bool × BitSetT × BitSetT) := do
  let field := integer (copyInteger field packet)
  let myBitset : BitSetT := .ofNat maxTableSize 0
  match lib.find s.interval field with
  | [] => .ok (false, myBitset, bitset &&& myBitset)
  | it :: rest =>
    let myBitset ← setAll myBitset ((it :: rest).map IntervalMap.Segment.value)
    .ok (true, myBitset, bitset &&& myBitset)

end MatchRange

abbrev rangeStage (lib : IntervalLib) (M : Match) : Stage where
  Impl := MatchRange lib M
  KeyType := RangeKeyType M
  Local := Fin M.integralBytes → UInt8
  init := .empty
  addRule := .addRule
  find := MatchRange.find

/-- The integer that the packet carries at the offset of the field. -/
def Match.number (M : Match) (packet : Packet) : Nat :=
  integer (M.field packet)

/-- The field is exactly as wide as an integer type. -/
def Match.Integral (M : Match) : Prop :=
  M.sizeT = 1 ∨ M.sizeT = 2 ∨ M.sizeT = 4 ∨ M.sizeT = 8

namespace MatchRange

variable {lib : IntervalLib} {M : Match}

theorem integralBytes_eq (hs : M.Integral) : M.integralBytes = M.sizeT := by
  unfold Match.integralBytes
  rcases hs with hs | hs | hs | hs <;> rw [hs] <;> rfl

theorem integer_copyInteger (hs : M.Integral) (field : Fin M.integralBytes → UInt8)
    (packet : Packet) : integer (copyInteger field packet) = M.number packet := by
  have hwidth := integralBytes_eq hs
  unfold Match.number integer
  congr 2
  refine List.ext_getElem (by simp [hwidth]) fun i hi hi' => ?_
  rw [List.length_ofFn] at hi hi'
  simp [copyInteger, Match.field, hi']

/-- A lookup sets the bits of the values that its walk over the segments meets. -/
theorem find_walk {s : MatchRange lib M} (hs : M.Integral) (packet : Packet)
    (hv : ∀ it ∈ lib.find s.interval (M.number packet), it.value < maxTableSize) :
    ∃ found selected, (∀ field my bits,
        s.find field my bits packet = .ok (found, selected, bits &&& selected)) ∧
      (found = true ↔ lib.find s.interval (M.number packet) ≠ []) ∧
      ∀ i, selected.getLsbD i = true ↔
        ∃ it ∈ lib.find s.interval (M.number packet), it.value = i := by
  cases hfind : lib.find s.interval (M.number packet) with
  | nil =>
    refine ⟨false, .ofNat maxTableSize 0, fun field my bits => ?_, by simp, fun i => by simp⟩
    simp [find, integer_copyInteger hs, hfind]
  | cons it rest =>
    rw [hfind] at hv
    have hpos : ∀ pos ∈ (it :: rest).map IntervalMap.Segment.value, pos < maxTableSize := by
      intro pos hp
      obtain ⟨t, ht, rfl⟩ := List.mem_map.mp hp
      exact hv t ht
    obtain ⟨selected, hset, hbits⟩ := setAll_ok (.ofNat maxTableSize 0) hpos
    refine ⟨true, selected, fun field my bits => ?_, by simp, fun i => ?_⟩
    · simp only [find, integer_copyInteger hs, hfind, hset]
      rfl
    · rw [hbits i, BitVec.getLsbD_zero, Bool.false_or, decide_eq_true_eq, List.mem_map]

end MatchRange

end LearningSwitch
