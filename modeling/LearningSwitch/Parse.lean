import LearningSwitch.CNumber
import LearningSwitch.Defs
import LearningSwitch.StepRun

namespace LearningSwitch

/-- `(arg[0] == '\0') || (*end != '\0')`, which each of the parsers checks after its conversion. -/
def malformed (arg : CNumber.CString) (rest : List UInt8) : Prop :=
  CNumber.deref arg.bytes = 0 ∨ CNumber.deref rest ≠ 0

instance (arg : CNumber.CString) (rest : List UInt8) : Decidable (malformed arg rest) :=
  inferInstanceAs (Decidable (_ ∨ _))

def parsePortmask (portmask : CNumber.CString) : Int32 :=
  let (pm, rest) := CNumber.strtoul portmask 16
  if malformed portmask rest then -1
  else if pm = 0 then -1
  else pm.toUInt32.toInt32

def parseTimerPeriod (qArg : CNumber.CString) : Int32 :=
  let (l, rest) := CNumber.strtol qArg 10
  let n := l.toInt32
  if malformed qArg rest then -1
  else if maxTimerPeriod ≤ n then -1
  else n

def parseNqueue (qArg : CNumber.CString) : UInt32 :=
  let (n, rest) := CNumber.strtoul qArg 10
  if malformed qArg rest then 0
  else if n = 0 then 0
  else if .ofNat maxRxQueuePerLcore ≤ n then 0
  else n.toUInt32

/-- The globals that `parse_args` writes, and what it has printed. -/
structure Options where
  enabledPortMask : UInt32
  rxQueuePerLcore : UInt32
  timerPeriod : Int64
  printed : List String

/-- What a call of `getopt_long` short of `EOF` returns: an option of the string `"p:q:T:"` with
its argument, 0, or any other value. -/
inductive Opt
  | portmask (optarg : CNumber.CString)
  | nqueue (optarg : CNumber.CString)
  | timerPeriod (optarg : CNumber.CString)
  | long
  | other

def usage (prgname : String) : String :=
  prgname ++ " [EAL options] -- -p PORTMASK [-q NQ]\n" ++
    "  -p PORTMASK: hexadecimal bitmask of ports to configure\n" ++
    "  -q NQ: number of queue (=ports) per lcore (default is 1)\n" ++
    "  -T PERIOD: statistics will be refreshed each PERIOD seconds (0 to disable, 10 default, 86400 maximum)\n"

def Options.print (o : Options) (texts : List String) : Options :=
  { o with printed := o.printed ++ texts }

/-- One turn of the loop; an error is the return of -1. -/
def parseOpt (prgname : String) (o : Options) (opt : Opt) : Except Options Options :=
  match opt with
  | .portmask optarg =>
    let o := { o with enabledPortMask := (parsePortmask optarg).toUInt32 }
    if o.enabledPortMask = 0 then .error (o.print ["invalid portmask\n", usage prgname])
    else .ok o
  | .nqueue optarg =>
    let o := { o with rxQueuePerLcore := parseNqueue optarg }
    if o.rxQueuePerLcore = 0 then .error (o.print ["invalid queue number\n", usage prgname])
    else .ok o
  | .timerPeriod optarg =>
    let o := { o with
      timerPeriod := ((parseTimerPeriod optarg * 1000).toInt64.toUInt64 * timerMillisecond).toInt64 }
    if o.timerPeriod < 0 then .error (o.print ["invalid timer period\n", usage prgname])
    else .ok o
  | .long => .error (o.print [usage prgname])
  | .other => .error (o.print [usage prgname])

/-- `parse_args` over the results of `getopt_long` and the `optind` it ends with. -/
def parseArgs (prgname : String) (o : Options) (opts : List Opt) (optind : Int32) :
    Int32 × Options :=
  match StepRun.run (parseOpt prgname) o opts with
  | .ok o => (optind - 1, o)
  | .error o => (-1, o)

variable {prgname : String} {o : Options} {opt : Opt}

theorem parseArgs_ok {next : Options} (h : parseOpt prgname o opt = .ok next) (opts : List Opt)
    (optind : Int32) :
    parseArgs prgname o (opt :: opts) optind = parseArgs prgname next opts optind := by
  rw [parseArgs, StepRun.run_cons, h, StepRun.ok_bind]
  rfl

theorem parseArgs_error {last : Options} (h : parseOpt prgname o opt = .error last)
    (opts : List Opt) (optind : Int32) :
    parseArgs prgname o (opt :: opts) optind = (-1, last) := by
  rw [parseArgs, StepRun.run_cons, h, StepRun.error_bind]

/-- A conversion is complete when the string is not empty and nothing of it is left. -/
theorem malformed_iff {arg : CNumber.CString} {rest : List UInt8} (h : rest <:+ arg.bytes) :
    malformed arg rest ↔ ¬(arg.bytes ≠ [] ∧ rest = []) := by
  unfold malformed
  rw [CNumber.deref_eq_zero_iff (List.suffix_refl arg.bytes), Ne, CNumber.deref_eq_zero_iff h]
  tauto

end LearningSwitch
