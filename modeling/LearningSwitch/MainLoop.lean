import LearningSwitch.Forwarding
import LearningSwitch.InputTrace
import LearningSwitch.PortAssignment

namespace LearningSwitch

structure PortStatistics where
  tx : UInt64
  rx : UInt64
  dropped : UInt64
deriving DecidableEq

/-- An index past the end of `rx_queue_list` or of `port_statistics`, or what a call ends in. -/
inductive LoopFault
  | rxQueueIndex (i : Nat)
  | statisticsIndex (portid : UInt8)
  | called (f : Fault)
deriving DecidableEq

/-- What the loop reads and never writes. -/
structure LoopConf where
  timerPeriod : Int64
  master : Bool

/-- One turn of the loop: the clock that it reads, the memory that a drain finds, and what the
driver holds behind each entry of `rx_queue_list`. A drain and a frame find the memory as the
drivers and the other lcores left it. -/
structure LoopTurn (n : Nat) where
  tsc : UInt64
  memory : World n
  rx : Nat → List (RxFrame n)

/-- A frame and the port on which it was polled. -/
structure Polled (n : Nat) where
  portid : UInt8
  frame : RxFrame n

/-- A frame that went through the pipeline, with the memory that it left. `prevTsc` is the drain
that the turn at `tsc` came behind. -/
structure Handled (n : Nat) where
  tsc : UInt64
  prevTsc : UInt64
  polled : Polled n
  after : World n

/-- The loop of one lcore. `sw.l2` and `sw.ethane` are the objects that all lcores share, as this
one last saw them, and `portStatistics` is what it alone added to the counters. -/
structure MainLoop (n : Nat) where
  sw : Switch n
  portStatistics : Fin maxPorts → PortStatistics
  timerTsc : UInt64
  prevTsc : UInt64
  handled : List (Handled n)

variable {n : Nat}

def Handled.arrival (h : Handled n) : Arrival n :=
  h.polled.frame.arrival

def Handled.events (h : Handled n) : List (Event n) :=
  h.after.log.drop h.arrival.world.log.length

/-- The lcore with the queues that `init_ports` gave it, once all lcores are behind `pipeline_init`
and before any of them has learned. -/
def MainLoop.start (ethane : Ethane) (q : LcoreQueueConf n) : MainLoop n where
  sw := { l2 := .empty, ethane, qconf := q }
  portStatistics := fun _ => { tx := 0, rx := 0, dropped := 0 }
  timerTsc := 0
  prevTsc := 0
  handled := []

/-- `print_stats` is commented out in the source, so only the reset is left. -/
def advanceTimer (conf : LoopConf) (timerTsc diffTsc : UInt64) : UInt64 :=
  if 0 < conf.timerPeriod then
    let timerTsc := timerTsc + diffTsc
    if conf.timerPeriod.toUInt64 ≤ timerTsc then if conf.master then 0 else timerTsc
    else timerTsc
  else timerTsc

def call {β : Type} (x : Except Fault β) : Except LoopFault β :=
  x.mapError .called

theorem call_eq_ok {β : Type} {x : Except Fault β} {b : β} : call x = .ok b ↔ x = .ok b := by
  cases x with
  | error f => simp [call, Except.mapError]
  | ok c => simp [call, Except.mapError]

/-- TX burst queue drain -/
def txDrain (conf : LoopConf) (s : MainLoop n) (t : LoopTurn n) : Except LoopFault (MainLoop n) :=
  let diffTsc := t.tsc - s.prevTsc
  if burstTxDrain < diffTsc then do
    let l ← call (drain ⟨t.memory, s.sw.qconf⟩)
    .ok { s with
      sw := { s.sw with qconf := l.qconf }
      timerTsc := advanceTimer conf s.timerTsc diffTsc
      prevTsc := t.tsc }
  else .ok s

def rxQueueId (q : LcoreQueueConf n) (i : Nat) : Except LoopFault UInt8 :=
  if h : i < maxRxQueuePerLcore then .ok (q.rxQueueList ⟨i, h⟩) else .error (.rxQueueIndex i)

def MainLoop.countRx (s : MainLoop n) (portid : UInt8) (nbRx : Nat) :
    Except LoopFault (MainLoop n) :=
  if h : portid.toNat < maxPorts then
    let p : Fin maxPorts := ⟨portid.toNat, h⟩
    let stats := s.portStatistics p
    let stats := { stats with rx := stats.rx + UInt64.ofNat nbRx }
    .ok { s with portStatistics := Function.update s.portStatistics p stats }
  else .error (.statisticsIndex portid)

/-- `start_pipeline` on the table as the other lcores left it; lcores put their frames through one
at a time. -/
def rxFrame (tsc : UInt64) (portid : UInt8) (s : MainLoop n) (f : RxFrame n) :
    Except LoopFault (MainLoop n) := do
  let l2 := f.others.foldl L2Switch.learn s.sw.l2
  let (sw, after) ← call (startPipeline { s.sw with l2 } f.arrival.world f.arrival.m f.stray)
  .ok { s with
    sw
    handled := s.handled ++ [{ tsc, prevTsc := s.prevTsc, polled := ⟨portid, f⟩, after }] }

/-- The driver hands over `MAX_PKT_BURST` frames at most. -/
def rxQueue (t : LoopTurn n) (s : MainLoop n) (i : Nat) : Except LoopFault (MainLoop n) := do
  let portid ← rxQueueId s.sw.qconf i
  let pktsBurst := (t.rx i).take maxPktBurst
  let s ← s.countRx portid pktsBurst.length
  StepRun.run (rxFrame t.tsc portid) s pktsBurst

/-- An lcore without a queue never enters the loop. -/
def mainLoopTurn (conf : LoopConf) (s : MainLoop n) (t : LoopTurn n) :
    Except LoopFault (MainLoop n) :=
  if s.sw.qconf.nRxQueue = 0 then .ok s
  else do
    let s ← txDrain conf s t
    StepRun.run (rxQueue t) s (List.range s.sw.qconf.nRxQueue.toNat)

end LearningSwitch
