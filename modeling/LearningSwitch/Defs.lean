import Mathlib.Data.Nat.Notation

namespace LearningSwitch

def maxPorts : Nat := 16

def maxPktBurst : Nat := 32

def burstTxDrain : UInt64 := 20000

def maxRxQueuePerLcore : Nat := 16

def timerMillisecond : UInt64 := 20000000

def maxTimerPeriod : Int32 := 86400

def l2Broadcast : UInt64 := 0xFFFFFFFFFFFF

def floodPort : UInt32 := 0xFFFFFFFF

def dropPacket : UInt32 := floodPort - 1

end LearningSwitch
