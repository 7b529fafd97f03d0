import LearningSwitch.FloodPorts

namespace LearningSwitch

def rteMaxLcore : Nat := 32

def lcoreZero : Fin rteMaxLcore := ⟨0, by decide⟩

def lcoreOne : Fin rteMaxLcore := ⟨1, by decide⟩

/-- The ends of `init_ports` short of its return: `rte_exit` with its message, or an index past
the end of `lcore_queue_conf` or of an `rx_queue_list`. -/
inductive SetupError
  | exit (text : String)
  | lcoreIndex (id : Nat)
  | rxQueueIndex (k : UInt16)
deriving DecidableEq

variable {n : Nat}

abbrev LcoreConfs (n : Nat) := Fin rteMaxLcore → LcoreQueueConf n

def lcoreIndex (id : Nat) : Except SetupError (Fin rteMaxLcore) :=
  if h : id < rteMaxLcore then .ok ⟨id, h⟩ else .error (.lcoreIndex id)

def rxQueueIndex (k : UInt16) : Except SetupError (Fin maxRxQueuePerLcore) :=
  if h : k.toNat < maxRxQueuePerLcore then .ok ⟨k.toNat, h⟩ else .error (.rxQueueIndex k)

def rteLcoreIsEnabled (lcores : Fin rteMaxLcore → Bool) (id : Nat) : Bool :=
  if h : id < rteMaxLcore then lcores ⟨id, h⟩ else false

/-- The condition of the `while` loop. -/
def lcoreTaken (lcores : Fin rteMaxLcore → Bool) (rxQueuePerLcore : UInt32) (confs : LcoreConfs n)
    (rxLcoreId : Nat) : Except SetupError Bool :=
  if rteLcoreIsEnabled lcores rxLcoreId = false then .ok true
  else do
    let i ← lcoreIndex rxLcoreId
    .ok ((confs i).nRxQueue.toUInt32 == rxQueuePerLcore)

/-- The `while` loop: the lcore for the next port, from the one of the last port on. -/
def rxLcore (lcores : Fin rteMaxLcore → Bool) (rxQueuePerLcore : UInt32) (confs : LcoreConfs n)
    (rxLcoreId : Nat) : Except SetupError Nat := do
  if ← lcoreTaken lcores rxQueuePerLcore confs rxLcoreId then
    if rteMaxLcore ≤ rxLcoreId + 1 then .error (.exit "Not enough cores\n")
    else rxLcore lcores rxQueuePerLcore confs (rxLcoreId + 1)
  else .ok rxLcoreId
termination_by rteMaxLcore - rxLcoreId

structure Assignment (n : Nat) where
  confs : LcoreConfs n
  rxLcoreId : Nat

/-- One turn of the loop that gives each enabled port to an lcore. -/
def assignPort (lcores : Fin rteMaxLcore → Bool) (enabledPortMask rxQueuePerLcore : UInt32)
    (s : Assignment n) (portid : UInt8) : Except SetupError (Assignment n) :=
  if enabledPortMask &&& ((1 : UInt32) <<< portid.toUInt32) = 0 then .ok s
  else do
    let rxLcoreId ← rxLcore lcores rxQueuePerLcore s.confs s.rxLcoreId
    let i ← lcoreIndex rxLcoreId
    let qconf := s.confs i
    let slot ← rxQueueIndex qconf.nRxQueue
    .ok {
      rxLcoreId
      confs := Function.update s.confs i { qconf with
        rxQueueList := Function.update qconf.rxQueueList slot portid
        nRxQueue := qconf.nRxQueue + 1 } }

/-- `nb_ports` after it is bounded by `MAX_PORTS`. -/
def clampPorts (devCount : UInt8) : Nat :=
  if maxPorts < devCount.toNat then maxPorts else devCount.toNat

def portIds (nbPorts : Nat) : List UInt8 :=
  (List.range nbPorts).map UInt8.ofNat

def assignPorts (lcores : Fin rteMaxLcore → Bool) (enabledPortMask rxQueuePerLcore : UInt32)
    (confs : LcoreConfs n) (nbPorts : Nat) : Except SetupError (Assignment n) :=
  StepRun.run (assignPort lcores enabledPortMask rxQueuePerLcore) ⟨confs, 0⟩ (portIds nbPorts)

/-- The calls of `init_ports` into the Ethernet device layer. -/
inductive DevCall
  | configure (portid : UInt8) (nbRxQueue nbTxQueue : UInt16)
  | rxQueueSetup (portid : UInt8) (queueid : UInt16)
  | txQueueSetup (portid : UInt8) (queueid : UInt16)
  | start (portid : UInt8)
  | promiscuousEnable (portid : UInt8)
deriving DecidableEq

/-- What a call returns after the calls before it. -/
abbrev Devices := List DevCall → DevCall → Int32

/-- A checked call: a negative result is the end of the program. -/
def devCall (dev : Devices) (what : String) (portid : UInt8) (calls : List DevCall)
    (call : DevCall) : Except SetupError (List DevCall) :=
  let ret := dev calls call
  if ret < 0 then
    .error (.exit (what ++ "err=" ++ toString ret ++ ", port=" ++ toString portid ++ "\n"))
  else .ok (calls ++ [call])

/-- One turn of the loop that initialises each enabled port. -/
def initPort (enabledPortMask : UInt32) (dev : Devices) (calls : List DevCall) (portid : UInt8) :
    Except SetupError (List DevCall) :=
  if enabledPortMask &&& ((1 : UInt32) <<< portid.toUInt32) = 0 then .ok calls
  else do
    let calls ← devCall dev "Cannot configure device: " portid calls (.configure portid 1 1)
    let calls ← devCall dev "rte_eth_tx_queue_setup:" portid calls (.rxQueueSetup portid 0)
    let calls ← devCall dev "rte_eth_tx_queue_setup:" portid calls (.txQueueSetup portid 0)
    let calls ← devCall dev "rte_eth_dev_start:" portid calls (.start portid)
    .ok (calls ++ [.promiscuousEnable portid])

def initPorts (devCount : UInt8) (lcores : Fin rteMaxLcore → Bool)
    (enabledPortMask rxQueuePerLcore : UInt32) (dev : Devices) (confs : LcoreConfs n) :
    Except SetupError (LcoreConfs n × List DevCall) :=
  if devCount = 0 then .error (.exit "No Ethernet ports - bye\n")
  else do
    let s ← assignPorts lcores enabledPortMask rxQueuePerLcore confs (clampPorts devCount)
    let calls ← StepRun.run (initPort enabledPortMask dev) [] (portIds (clampPorts devCount))
    .ok (s.confs, calls)

end LearningSwitch
