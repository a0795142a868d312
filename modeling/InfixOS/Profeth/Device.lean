import Mathlib.Data.BitVec
import Mathlib.Data.List.Basic

/-! The submodules of profeth and their data: the table of plugged submodules
(src/profeth/src/app_utils.c), parameters, process data and the LED (app_data.c,
app_gsdml.c), and the callbacks of the p-net stack that use them (sampleapp_common.c).
What p-net answers is part of a request. -/
namespace Profeth

abbrev Byte := BitVec 8

/-- `pnet_submodule_dir_t`. -/
inductive Direction where
  | noIo
  | input
  | output
  | io
  deriving DecidableEq, Repr

structure DataCfg where
  dataDir : Direction
  insize : Nat
  outsize : Nat
  deriving DecidableEq, Repr

/-- The ids of submodules. -/
inductive Submodule where
  | dap
  | dapInterface1
  | dapPort (n : Fin 4)
  | digitalIn
  | digitalOut
  | digitalInOut
  | echo
  /-- An id that is not in the list of supported ones. -/
  | other (id : BitVec 32)
  deriving DecidableEq, Repr

structure GsdmlParam where
  index : Nat
  length : Nat
  deriving DecidableEq, Repr

structure GsdmlSubmodule where
  dataCfg : DataCfg
  parameters : List Nat
  deriving DecidableEq, Repr

def parameter1Idx : Nat := 123

def parameter2Idx : Nat := 124

def parameterEchoIdx : Nat := 125

def appGsdmlParameters : List GsdmlParam :=
  [⟨parameter1Idx, 4⟩, ⟨parameter2Idx, 4⟩, ⟨parameterEchoIdx, 4⟩]

def appGsdmlGetSubmoduleCfg : Submodule → Option GsdmlSubmodule
  | .dap | .dapInterface1 | .dapPort _ => some ⟨⟨.noIo, 0, 0⟩, []⟩
  | .digitalIn => some ⟨⟨.input, 1, 0⟩, []⟩
  | .digitalOut => some ⟨⟨.output, 0, 1⟩, []⟩
  | .digitalInOut => some ⟨⟨.io, 1, 1⟩, [parameter1Idx, parameter2Idx]⟩
  | .echo => some ⟨⟨.io, 8, 8⟩, [parameterEchoIdx]⟩
  | .other _ => none

def appGsdmlGetParameterCfg (submodule : Submodule) (index : Nat) : Option GsdmlParam := do
  let cfg ← appGsdmlGetSubmoduleCfg submodule
  if index ∈ cfg.parameters then appGsdmlParameters.find? (·.index = index) else none

structure Subslot where
  used : Bool
  plugged : Bool
  slotNbr : Nat
  subslotNbr : Nat
  submodule : Submodule
  dataCfg : DataCfg
  /-- Whether `cyclic_callback` is set. -/
  cyclicCallback : Bool
  deriving DecidableEq, Repr

/-- What `memset` leaves. -/
def Subslot.zero : Subslot := ⟨false, false, 0, 0, .other 0, ⟨.noIo, 0, 0⟩, false⟩

/-- The table has `PNET_MAX_SLOTS` slots of `PNET_MAX_SUBSLOTS` entries. -/
abbrev Slots := List (List Subslot)

def appUtilsPlugSubmodule (slots : Slots) (slotNbr subslotNbr : Nat) (submodule : Submodule)
    (dataCfg : DataCfg) (cyclicCallback : Bool) : Slots :=
  slots.modify slotNbr fun subslots =>
    match subslots.findIdx? fun s => !s.used with
    | some i => subslots.set i ⟨true, true, slotNbr, subslotNbr, submodule, dataCfg, cyclicCallback⟩
    | none => subslots

/-- The entry is found by its number, whether it is used or not. -/
def appUtilsSubslotGet (slots : Slots) (slotNbr subslotNbr : Nat) : Option Subslot := do
  let subslots ← slots[slotNbr]?
  subslots.find? fun s => s.subslotNbr = subslotNbr

/-- The slot is compared with the number of subslots. -/
def appUtilsPullSubmodule (pnetMaxSubslots : Nat) (slots : Slots) (slotNbr subslotNbr : Nat) : Slots :=
  if pnetMaxSubslots ≤ slotNbr then slots
  else slots.modify slotNbr fun subslots =>
    match subslots.findIdx? fun s => s.subslotNbr = subslotNbr with
    | some i => subslots.set i .zero
    | none => subslots

/-- The fields of a slot besides its submodules. -/
structure Module where
  plugged : Bool
  moduleId : BitVec 32
  deriving DecidableEq, Repr

def appUtilsPlugModule (modules : List Module) (slotNbr : Nat) (id : BitVec 32) : List Module :=
  modules.set slotNbr ⟨true, id⟩

/-- The submodules of the slot stay as they are. -/
def appUtilsPullModule (modules : List Module) (slotNbr : Nat) : List Module :=
  modules.modify slotNbr fun m => { m with plugged := false }

/-- The application's static data. Parameters are kept as the bytes of the network. -/
structure Device where
  modules : List Module
  slots : Slots
  appParam1 : List Byte
  appParam2 : List Byte
  appParamEchoGain : List Byte
  outputdata : Byte
  counter : Byte
  echoOutputdata : List Byte
  /-- What `app_set_led` was last called with. -/
  led : Bool
  previousLedState : Bool
  deriving DecidableEq, Repr

/-- The build: `PNET_MAX_SLOTS`, `PNET_MAX_SUBSLOTS`, the order of bytes in memory, and the
product of a float and an integer. -/
structure Build where
  pnetMaxSlots : Nat
  pnetMaxSubslots : Nat
  littleEndian : Bool
  scale : BitVec 32 → BitVec 32 → BitVec 32

/-- The gain is initialised with the integer 1. -/
def Build.start (build : Build) : Device where
  modules := List.replicate build.pnetMaxSlots ⟨false, 0⟩
  slots := List.replicate build.pnetMaxSlots (List.replicate build.pnetMaxSubslots .zero)
  appParam1 := [0, 0, 0, 0]
  appParam2 := [0, 0, 0, 0]
  appParamEchoGain := if build.littleEndian then [1, 0, 0, 0] else [0, 0, 0, 1]
  outputdata := 0
  counter := 0
  echoOutputdata := List.replicate 8 0
  led := false
  previousLedState := false

def appHandleDataLedState (device : Device) (ledState : Bool) : Device :=
  let device := if ledState ≠ device.previousLedState then { device with led := ledState } else device
  { device with previousLedState := ledState }

/-- `CC_FROM_BE32` of four bytes of memory. -/
def fromBe32 (bytes : List Byte) : BitVec 32 :=
  BitVec.ofNat 32 (bytes.foldl (fun n b => n * 256 + b.toNat) 0)

/-- The bytes of `CC_TO_BE32`. -/
def toBe32 (word : BitVec 32) : List Byte :=
  [(word >>> 24).setWidth 8, (word >>> 16).setWidth 8, (word >>> 8).setWidth 8, word.setWidth 8]

/-- The input data, with a good provider status; none is sent with a bad one. -/
def appDataGetInputData (build : Build) (device : Device) (submodule : Submodule) (buttonPressed : Bool) :
    Device × Option (List Byte) :=
  match submodule with
  | .digitalIn | .digitalInOut =>
    let inputdata := if buttonPressed then device.counter ||| 0x80 else device.counter &&& 0x7F
    ({ device with counter := device.counter + 1 }, some [inputdata])
  | .echo =>
    let gain := fromBe32 device.appParamEchoGain
    let echoInt := fromBe32 (device.echoOutputdata.drop 4) * gain
    let echoFloat := build.scale (fromBe32 (device.echoOutputdata.take 4)) gain
    (device, some (toBe32 echoFloat ++ toBe32 echoInt))
  | _ => (device, none)

def appDataSetOutputData (device : Device) (submodule : Submodule) (data : List Byte) : Device :=
  match submodule with
  | .digitalOut | .digitalInOut =>
    match data with
    | [byte] => appHandleDataLedState { device with outputdata := byte } byte.msb
    | _ => device
  | .echo => if data.length = 8 then { device with echoOutputdata := data } else device
  | _ => device

def appDataSetDefaultOutputs (device : Device) : Device :=
  appHandleDataLedState { device with outputdata := 0 } false

def appDataWriteParameter (device : Device) (submodule : Submodule) (index : Nat) (data : List Byte) :
    Option Device := do
  let cfg ← appGsdmlGetParameterCfg submodule index
  if data.length ≠ cfg.length then none
  else if index = parameter1Idx then some { device with appParam1 := data }
  else if index = parameter2Idx then some { device with appParam2 := data }
  else if index = parameterEchoIdx then some { device with appParamEchoGain := data }
  else some device

/-- What the controller may read at most is `length`. -/
def appDataReadParameter (device : Device) (submodule : Submodule) (index length : Nat) :
    Option (List Byte) := do
  let cfg ← appGsdmlGetParameterCfg submodule index
  if length < cfg.length then none
  else if index = parameter1Idx then some device.appParam1
  else if index = parameter2Idx then some device.appParam2
  else if index = parameterEchoIdx then some device.appParamEchoGain
  else some []

/-- What p-net has received for a subslot: the data, and whether their provider status is good. -/
structure Received where
  data : List Byte
  good : Bool
  deriving DecidableEq, Repr

/-- Input data that were handed to p-net. -/
structure Sent where
  slotNbr : Nat
  subslotNbr : Nat
  data : Option (List Byte)
  deriving DecidableEq, Repr

def pnetSlotDapIdent : Nat := 0

/-- The first half of `app_cyclic_data_callback`. -/
def takeOutput (received : Nat → Nat → Received) (device : Device) (subslot : Subslot) : Device :=
  if subslot.slotNbr ≠ pnetSlotDapIdent ∧ 0 < subslot.dataCfg.outsize then
    let output := received subslot.slotNbr subslot.subslotNbr
    if output.data.length ≠ subslot.dataCfg.outsize then appDataSetDefaultOutputs device
    else if output.good then appDataSetOutputData device subslot.submodule output.data
    else appDataSetDefaultOutputs device
  else device

/-- The second half. -/
def giveInput (build : Build) (buttonPressed : Bool) (device : Device) (subslot : Subslot) :
    Device × List Sent :=
  if subslot.slotNbr ≠ pnetSlotDapIdent ∧ 0 < subslot.dataCfg.insize then
    let (device, data) := appDataGetInputData build device subslot.submodule buttonPressed
    (device, [⟨subslot.slotNbr, subslot.subslotNbr, data⟩])
  else (device, [])

def appCyclicDataCallback (build : Build) (received : Nat → Nat → Received) (buttonPressed : Bool)
    (device : Device) (subslot : Subslot) : Device × List Sent :=
  giveInput build buttonPressed (takeOutput received device subslot) subslot

/-- The callbacks of a poll, one subslot after the other. -/
def pollSubslots (build : Build) (received : Nat → Nat → Received) (buttonPressed : Bool) :
    List Subslot → Device → Device × List Sent
  | [], device => (device, [])
  | subslot :: rest, device =>
    if subslot.plugged ∧ subslot.cyclicCallback then
      let (device, sent) := appCyclicDataCallback build received buttonPressed device subslot
      let (device, more) := pollSubslots build received buttonPressed rest device
      (device, sent ++ more)
    else pollSubslots build received buttonPressed rest device

def appUtilsCyclicDataPoll (build : Build) (device : Device) (received : Nat → Nat → Received)
    (buttonPressed : Bool) : Device × List Sent :=
  pollSubslots build received buttonPressed device.slots.flatten device

/-- What the application is called for. -/
inductive Request where
  /-- `app_exp_module_ind`, and whether p-net pulls an old module and plugs the new one. -/
  | expModule (slot : Nat) (moduleIdent : BitVec 32) (pulled plugged : Bool)
  /-- `app_exp_submodule_ind`, and whether p-net pulls an old submodule and plugs the new one. -/
  | expSubmodule (slot subslot : Nat) (submodule : Submodule) (expData : DataCfg) (pulled plugged : Bool)
  | write (slot subslot index : Nat) (data : List Byte)
  | read (slot subslot index length : Nat)
  | release
  | abort
  | newDataStatus (isRunning isValid : Bool)
  | poll (received : Nat → Nat → Received) (buttonPressed : Bool)

inductive Reply where
  | ok
  | failed
  | data (bytes : List Byte)
  | sent (inputs : List Sent)
  deriving DecidableEq, Repr

def appExpModuleInd (build : Build) (device : Device) (slot : Nat) (moduleIdent : BitVec 32)
    (pulled plugged : Bool) : Device × Reply :=
  if build.pnetMaxSlots ≤ slot then (device, .failed)
  else
    let modules := if pulled then appUtilsPullModule device.modules slot else device.modules
    if plugged then ({ device with modules := appUtilsPlugModule modules slot moduleIdent }, .ok)
    else ({ device with modules }, .failed)

def appExpSubmoduleInd (build : Build) (device : Device) (slot subslot : Nat) (submodule : Submodule)
    (expData : DataCfg) (pulled plugged : Bool) : Device × Reply :=
  -- an unsupported submodule is plugged as the controller expects it, and never polled
  let (dataCfg, cyclic) :=
    match appGsdmlGetSubmoduleCfg submodule with
    | some cfg => (cfg.dataCfg, decide (0 < cfg.dataCfg.insize ∨ 0 < cfg.dataCfg.outsize))
    | none => (expData, false)
  let slots := if pulled then appUtilsPullSubmodule build.pnetMaxSubslots device.slots slot subslot
    else device.slots
  if plugged then
    ({ device with slots := appUtilsPlugSubmodule slots slot subslot submodule dataCfg cyclic }, .ok)
  else ({ device with slots }, .failed)

def appWriteInd (device : Device) (slot subslot index : Nat) (data : List Byte) : Device × Reply :=
  match appUtilsSubslotGet device.slots slot subslot with
  | none => (device, .failed)
  | some entry =>
    match appDataWriteParameter device entry.submodule index data with
    | some device => (device, .ok)
    | none => (device, .failed)

def appReadInd (device : Device) (slot subslot index length : Nat) : Reply :=
  match appUtilsSubslotGet device.slots slot subslot with
  | none => .failed
  | some entry =>
    match appDataReadParameter device entry.submodule index length with
    | some bytes => .data bytes
    | none => .failed

def appNewDataStatusInd (device : Device) (isRunning isValid : Bool) : Device :=
  if isRunning = false ∨ isValid = false then appDataSetDefaultOutputs device else device

def handle (build : Build) (device : Device) : Request → Device × Reply
  | .expModule slot moduleIdent pulled plugged =>
    appExpModuleInd build device slot moduleIdent pulled plugged
  | .expSubmodule slot subslot submodule expData pulled plugged =>
    appExpSubmoduleInd build device slot subslot submodule expData pulled plugged
  | .write slot subslot index data => appWriteInd device slot subslot index data
  | .read slot subslot index length => (device, appReadInd device slot subslot index length)
  | .release => (appDataSetDefaultOutputs device, .ok)
  | .abort => (appDataSetDefaultOutputs device, .ok)
  | .newDataStatus isRunning isValid => (appNewDataStatusInd device isRunning isValid, .ok)
  | .poll received buttonPressed =>
    let (device, inputs) := appUtilsCyclicDataPoll build device received buttonPressed
    (device, .sent inputs)

/-- The device after some requests, and the replies to them. -/
structure History where
  device : Device
  log : List (Request × Reply)

def History.next (build : Build) (history : History) (request : Request) : History :=
  let (device, reply) := handle build history.device request
  ⟨device, history.log ++ [(request, reply)]⟩

def run (build : Build) (requests : List Request) : History :=
  requests.foldl (History.next build) ⟨build.start, []⟩

@[simp] theorem run_nil (build : Build) : run build [] = ⟨build.start, []⟩ := rfl

@[simp] theorem run_concat (build : Build) (requests : List Request) (request : Request) :
    run build (requests ++ [request]) = (run build requests).next build request :=
  List.foldl_concat ..

/-- What holds at the start and is kept by every request holds after any. -/
theorem run_invariant {build : Build} {P : History → Prop} (start : P ⟨build.start, []⟩)
    (step : ∀ history request, P history → P (history.next build request)) (requests : List Request) :
    P (run build requests) := by
  induction requests using List.reverseRecOn with
  | nil => exact start
  | append_singleton requests request ih =>
    rw [run_concat]
    exact step _ request ih

end Profeth
