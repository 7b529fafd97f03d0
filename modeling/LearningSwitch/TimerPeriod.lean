import LearningSwitch.Parse
import Mathlib.Algebra.Order.Ring.Int

namespace LearningSwitch

/-- Option `-T` accepts the numbers from 0 to below `MAX_TIMER_PERIOD` and stores that many
seconds of ticks; it reports any other argument. -/
def TimerExact (s : CNumber.CString) : Prop :=
  ∀ prgname o,
    (∀ d, CNumber.denotes 10 s = some d → 0 ≤ d → d < maxTimerPeriod.toInt → ∃ next : Options,
      next.timerPeriod.toInt = d * 1000 * timerMillisecond.toNat ∧ ∀ opts optind,
        parseArgs prgname o (.timerPeriod s :: opts) optind = parseArgs prgname next opts optind) ∧
    ((∀ d, CNumber.denotes 10 s = some d → ¬(0 ≤ d ∧ d < maxTimerPeriod.toInt)) →
      ∃ last : Options,
        last.printed = o.printed ++ ["invalid timer period\n", usage prgname] ∧ ∀ opts optind,
          parseArgs prgname o (.timerPeriod s :: opts) optind = (-1, last))

/-- The ticks of a period as the option loop computes them. -/
def ticks (n : Int32) : Int64 :=
  ((n * 1000).toInt64.toUInt64 * timerMillisecond).toInt64

/-- Only the first product wraps: the second has room in 64 bits. -/
theorem ticks_toInt (n : Int32) :
    (ticks n).toInt = (n.toInt * 1000).bmod (2 ^ 32) * 20000000 := by
  have hmul : ticks n = (n * 1000).toInt64 * 20000000 := rfl
  have hlow : -2 ^ 31 ≤ (n.toInt * 1000).bmod (2 ^ 32) := Int.le_bmod (by decide)
  have hhigh : (n.toInt * 1000).bmod (2 ^ 32) < 2 ^ 31 := Int.bmod_lt (by decide)
  have hfactor : (n * 1000).toInt64.toInt = (n.toInt * 1000).bmod (2 ^ 32) := by
    rw [Int32.toInt_toInt64, Int32.toInt_mul]
    rfl
  have hconst : (20000000 : Int64).toInt = 20000000 := rfl
  rw [hmul, Int64.toInt_mul, hfactor, hconst]
  exact Int.bmod_eq_of_le (by omega) (by omega)

/-- The `int` that the result of `strtol` becomes. -/
def truncated (d : Int) : Int :=
  (max (-2 ^ 63) (min (2 ^ 63 - 1) d)).bmod (2 ^ 32)

theorem truncated_eq_self {d : Int} (hlow : 0 ≤ d) (hhigh : d < maxTimerPeriod.toInt) :
    truncated d = d := by
  have hmax : maxTimerPeriod.toInt = 86400 := rfl
  rw [truncated, min_eq_right (by omega), max_eq_right (by omega)]
  exact Int.bmod_eq_of_le (by omega) (by omega)

variable {s : CNumber.CString}

theorem parseTimerPeriod_of_none (h : CNumber.denotes 10 s = none) : parseTimerPeriod s = -1 := by
  have hsome := CNumber.denotes_isSome_iff s 10
  rw [h] at hsome
  have hbad := (malformed_iff (CNumber.strtol_suffix s 10)).mpr fun hc => by
    have := hsome.mpr hc
    cases this
  simp only [parseTimerPeriod, if_pos hbad]

theorem parseTimerPeriod_of_some {d : Int} (h : CNumber.denotes 10 s = some d) :
    (parseTimerPeriod s).toInt =
      if maxTimerPeriod.toInt ≤ truncated d then -1 else truncated d := by
  have hsome := CNumber.denotes_isSome_iff s 10
  rw [h] at hsome
  have hok : ¬malformed s (CNumber.strtol s 10).2 := fun hm =>
    (malformed_iff (CNumber.strtol_suffix s 10)).mp hm (hsome.mp rfl)
  have hn : (CNumber.strtol s 10).1.toInt32.toInt = truncated d := by
    rw [Int64.toInt_toInt32, CNumber.strtol_of_denotes h]
    rfl
  simp only [parseTimerPeriod, if_neg hok, Int32.le_iff_toInt_le, hn]
  split
  next => rfl
  next => exact hn

/-- The option is accepted when its ticks do not come out negative. -/
theorem parseOpt_timerPeriod_ok (prgname : String) (o : Options)
    (h : 0 ≤ (ticks (parseTimerPeriod s)).toInt) :
    parseOpt prgname o (.timerPeriod s) =
      .ok { o with timerPeriod := ticks (parseTimerPeriod s) } := by
  refine if_neg fun hneg => ?_
  have hneg : (ticks (parseTimerPeriod s)).toInt < 0 := Int64.lt_iff_toInt_lt.mp hneg
  omega

theorem parseOpt_timerPeriod_error (prgname : String) (o : Options)
    (h : (ticks (parseTimerPeriod s)).toInt < 0) :
    parseOpt prgname o (.timerPeriod s) =
      .error (Options.print { o with timerPeriod := ticks (parseTimerPeriod s) }
        ["invalid timer period\n", usage prgname]) :=
  if_pos (Int64.lt_iff_toInt_lt.mpr h)

theorem bmod_seconds {e : Int} (hlow : 0 ≤ e) (hhigh : e < maxTimerPeriod.toInt) :
    (e * 1000).bmod (2 ^ 32) = e * 1000 := by
  have hmax : maxTimerPeriod.toInt = 86400 := rfl
  exact Int.bmod_eq_of_le (by omega) (by omega)

theorem ticks_of_range {d : Int} (hd : CNumber.denotes 10 s = some d) (hlow : 0 ≤ d)
    (hhigh : d < maxTimerPeriod.toInt) :
    (ticks (parseTimerPeriod s)).toInt = d * 1000 * timerMillisecond.toNat := by
  rw [ticks_toInt, parseTimerPeriod_of_some hd, truncated_eq_self hlow hhigh, if_neg (by omega),
    bmod_seconds hlow hhigh]
  rfl

/-- The error code, a number that is too large and one whose product with 1000 keeps its sign
all give negative ticks. -/
theorem ticks_negative (h : ∀ d, CNumber.denotes 10 s = some d →
    maxTimerPeriod.toInt ≤ truncated d ∨
      (truncated d < 0 ∧ (truncated d * 1000).bmod (2 ^ 32) < 0)) :
    (ticks (parseTimerPeriod s)).toInt < 0 := by
  have hmax : maxTimerPeriod.toInt = 86400 := rfl
  have herror : ((-1 : Int) * 1000).bmod (2 ^ 32) * 20000000 < 0 := by decide
  cases hd : CNumber.denotes 10 s with
  | none =>
    rw [ticks_toInt, parseTimerPeriod_of_none hd]
    exact herror
  | some d =>
    rw [ticks_toInt, parseTimerPeriod_of_some hd]
    rcases h d hd with hlarge | ⟨hsign, hprod⟩
    · rw [if_pos hlarge]
      exact herror
    · rw [if_neg (by omega)]
      omega

/-- A number out of range whose ticks come out without a sign is accepted. -/
theorem not_timerExact_of_nonneg {d : Int} (hd : CNumber.denotes 10 s = some d)
    (hrange : ¬(0 ≤ d ∧ d < maxTimerPeriod.toInt)) (h : 0 ≤ (ticks (parseTimerPeriod s)).toInt) :
    ¬TimerExact s := by
  intro hexact
  obtain ⟨last, _, hargs⟩ := (hexact "" ⟨0, 0, 0, []⟩).2 fun e he => by
    rw [hd] at he
    cases he
    exact hrange
  have hreturn := hargs [] 1
  rw [parseArgs_ok (parseOpt_timerPeriod_ok "" _ h)] at hreturn
  exact absurd (congrArg Prod.fst hreturn) (show ¬(1 - 1 : Int32) = -1 by decide)

/-- Option `-T` does what it should unless its argument is a number out of range that becomes an
`int` below `MAX_TIMER_PERIOD` whose product with 1000 is not negative as an `int`. -/
theorem timerExact_iff (s : CNumber.CString) :
    TimerExact s ↔ ∀ d, CNumber.denotes 10 s = some d → (0 ≤ d ∧ d < maxTimerPeriod.toInt) ∨
      maxTimerPeriod.toInt ≤ truncated d ∨
      (truncated d < 0 ∧ (truncated d * 1000).bmod (2 ^ 32) < 0) := by
  have hmax : maxTimerPeriod.toInt = 86400 := rfl
  constructor
  · intro hexact d hd
    by_contra hnot
    push Not at hnot
    obtain ⟨hrange, hlt, hneg⟩ := hnot
    refine not_timerExact_of_nonneg hd (fun hr => absurd (hrange hr.1) (by omega)) ?_ hexact
    rw [ticks_toInt, parseTimerPeriod_of_some hd, if_neg (by omega)]
    by_cases hsign : truncated d < 0
    · have := hneg hsign
      omega
    · rw [bmod_seconds (by omega) hlt]
      omega
  · intro hall prgname o
    refine ⟨fun d hd hlow hhigh => ?_, fun hrange => ?_⟩
    · have hticks := ticks_of_range hd hlow hhigh
      have hpos : 0 ≤ (ticks (parseTimerPeriod s)).toInt := by
        have hrate : (timerMillisecond.toNat : Int) = 20000000 := rfl
        rw [hticks, hrate]
        omega
      exact ⟨{ o with timerPeriod := ticks (parseTimerPeriod s) }, hticks,
        parseArgs_ok (parseOpt_timerPeriod_ok prgname o hpos)⟩
    · have hneg := ticks_negative fun d hd => (hall d hd).resolve_left (hrange d hd)
      exact ⟨_, rfl, parseArgs_error (parseOpt_timerPeriod_error prgname o hneg)⟩

/-- The string "-2147483648". -/
def minInt : CNumber.CString := ⟨[45, 50, 49, 52, 55, 52, 56, 51, 54, 52, 56], by decide⟩

/-- It is accepted as a period of 0: a thousand times the least `int` is 0. -/
theorem not_timerExact : ¬TimerExact minInt :=
  not_timerExact_of_nonneg (d := -2147483648) (by decide) (by decide) (by decide)

end LearningSwitch
