import InfixOS.Profeth.ArTable

/-! The main task of src/profeth/src/sampleapp_common.c. Callbacks of the p-net stack set
events for an application relation; the main loop clears them and calls back into the stack.
Any call into the stack may run callbacks before it returns, and which ones is not known:
the state holds a script of them, call by call. Alarm arguments are of any type. -/
namespace Profeth
open Slots

inductive Event where
  | readyForData
  | timer
  | alarm
  | smReleased
  | abort
  deriving DecidableEq, Repr

def Event.bit : Event → BitVec 32
  | readyForData => 1 <<< 0
  | timer => 1 <<< 1
  | alarm => 1 <<< 2
  | smReleased => 1 <<< 3
  | abort => 1 <<< 15

/-- `pnet_event_values_t`. -/
inductive PnetEvent where
  | abort
  | startup
  | prmend
  | applrdy
  | data
  deriving DecidableEq, Repr

inductive Callback (A : Type) where
  | stateInd (arep : BitVec 32) (event : PnetEvent)
  | smReleasedInd (arep : BitVec 32)
  | alarmInd (arep : BitVec 32) (alarmArg : A)
  /-- The timer's, which may come at any time. -/
  | timerTick
  /-- Those of the stack that touch neither the table nor the events. -/
  | other
  deriving DecidableEq, Repr

/-- What the main loop calls. -/
inductive Call (A : Type) where
  | applicationReady (arep : BitVec 32)
  | alarmSendAck (arep : BitVec 32) (alarmArg : A)
  | smReleasedCnf (arep : BitVec 32)
  | cyclicDataPoll
  | handlePeriodic
  deriving DecidableEq, Repr

inductive Occurrence (A : Type) where
  | callback (callback : Callback A)
  | call (call : Call A)
  deriving DecidableEq, Repr

structure App (A : Type) where
  ar : List Ar
  mainEvents : BitVec 32
  alarmArg : A
  processDataTickCounter : BitVec 32
  /-- What has happened, in order. -/
  trace : List (Occurrence A)
  /-- The callbacks that the next calls into the stack will run. -/
  script : List (List (Callback A))
  deriving DecidableEq, Repr

variable {A : Type}

def appIsConnectedToController (app : App A) : Bool := appArArep app.ar 0 != uint32Max

def appInit (pnetMaxAr : Nat) (alarmArg : A) : App A :=
  ⟨List.replicate pnetMaxAr ⟨uint32Max, 0⟩, 0, alarmArg, 0, [], []⟩

def osEventSet (app : App A) (event : BitVec 32) : App A :=
  { app with mainEvents := app.mainEvents ||| event }

def osEventClr (app : App A) (event : BitVec 32) : App A :=
  { app with mainEvents := app.mainEvents &&& ~~~event }

def mainTimerTick (app : App A) : App A := osEventSet app Event.timer.bit

def appEventSet (app : App A) (arep : BitVec 32) (event : Event) (addArep : Bool) : Option (App A) :=
  (setEvent app.ar arep event.bit addArep).map fun ar => osEventSet { app with ar } event.bit

def appStateInd (app : App A) (arep : BitVec 32) : PnetEvent → Option (App A)
  | .abort => appEventSet app arep .abort false
  | .prmend => appEventSet app arep .readyForData true
  | .startup | .applrdy | .data => some app

def appSmReleasedInd (app : App A) (arep : BitVec 32) : Option (App A) :=
  appEventSet app arep .smReleased false

def appAlarmInd (app : App A) (arep : BitVec 32) (alarmArg : A) : Option (App A) :=
  appEventSet { app with alarmArg } arep .alarm false

def runCallback (app : App A) (callback : Callback A) : Option (App A) :=
  let app := { app with trace := app.trace ++ [.callback callback] }
  match callback with
  | .stateInd arep event => appStateInd app arep event
  | .smReleasedInd arep => appSmReleasedInd app arep
  | .alarmInd arep alarmArg => appAlarmInd app arep alarmArg
  | .timerTick => some (mainTimerTick app)
  | .other => some app

/-- A call into the stack, with the callbacks it runs. -/
def callStack (app : App A) (call : Call A) : Option (App A) :=
  (app.script.headD []).foldlM runCallback
    { app with trace := app.trace ++ [.call call], script := app.script.tail }

/-- A handler returns whether the relation is to be removed. -/
abbrev Handler (A : Type) := App A → BitVec 32 → Option (App A × Bool)

def appArReadyForDataHandler : Handler A := fun app arep =>
  (callStack app (.applicationReady arep)).map fun app => (app, false)

def appArAlarmHandler : Handler A := fun app arep =>
  (callStack app (.alarmSendAck arep app.alarmArg)).map fun app => (app, false)

def appArSmReleasedHandler : Handler A := fun app arep =>
  (callStack app (.smReleasedCnf arep)).map fun app => (app, false)

def appArAbortHandler : Handler A := fun app _ => some (app, true)

/-- The loop of `app_handle_event_ar`, for at most `n` rounds. -/
def appHandleEventArLoop (event : Event) (handler : Handler A) :
    Nat → App A → Iterator → Option (App A)
  | 0, _, _ => none
  | n + 1, app, iterator =>
    match appArIteratorNext app.ar iterator with
    | (ar, _, none) => some { app with ar }
    | (ar, iterator, some i) =>
      match appArEventClr ar i event.bit with
      | (ar, false) => appHandleEventArLoop event handler n { app with ar } iterator
      | (ar, true) =>
        (handler { app with ar } (appArArep ar i)).bind fun (app, remove) =>
          if remove then
            let (ar, iterator) := appArIteratorDeleteCurrent app.ar iterator
            appHandleEventArLoop event handler n { app with ar } iterator
          else appHandleEventArLoop event handler n app iterator

def appHandleEventAr (app : App A) (event : Event) (handler : Handler A) : Option (App A) :=
  appHandleEventArLoop event handler (app.ar.length + 1) (osEventClr app event.bit) appArIteratorInit

def appTicksUpdateData : BitVec 32 := 100

def appHandleCyclicData (app : App A) : App A :=
  let app := { app with processDataTickCounter := app.processDataTickCounter + 1 }
  if app.processDataTickCounter < appTicksUpdateData then app
  else { app with processDataTickCounter := 0, trace := app.trace ++ [.call .cyclicDataPoll] }

/-- `app_handle_event_timer` up to the demo that a button starts. -/
def timerStart (app : App A) : App A :=
  let app := osEventClr app Event.timer.bit
  if appIsConnectedToController app then appHandleCyclicData app else app

/-- Callbacks that the demo causes are counted to `pnet_handle_periodic`. -/
def appHandleEventTimer (app : App A) : Option (App A) := callStack (timerStart app) .handlePeriodic

def mask : BitVec 32 :=
  Event.readyForData.bit ||| Event.timer.bit ||| Event.alarm.bit ||| Event.smReleased.bit |||
    Event.abort.bit

/-- The flag of an event is set. -/
def Has (flags : BitVec 32) (event : Event) : Prop := flags &&& event.bit ≠ 0
  deriving Decidable

/-- One round of the main loop, from the flags that `app_event_wait` returns. -/
def appLoopBody (app : App A) : Option (App A) := do
  let flags := app.mainEvents &&& mask
  let app ← (if Has flags .readyForData then
    appHandleEventAr app .readyForData appArReadyForDataHandler else some app)
  let app ← (if Has flags .alarm then appHandleEventAr app .alarm appArAlarmHandler else some app)
  let app ← (if Has flags .timer then appHandleEventTimer app else some app)
  let app ← (if Has flags .smReleased then
    appHandleEventAr app .smReleased appArSmReleasedHandler else some app)
  if Has flags .abort then appHandleEventAr app .abort appArAbortHandler else some app

/-- The relation and the event that a callback is about. -/
def Callback.indicates : Callback A → Option (BitVec 32 × Event)
  | stateInd arep .abort => some (arep, .abort)
  | stateInd arep .prmend => some (arep, .readyForData)
  | stateInd _ _ => none
  | smReleasedInd arep => some (arep, .smReleased)
  | alarmInd arep _ => some (arep, .alarm)
  | timerTick => none
  | other => none

/-- The relation and the event that a call is made for. -/
def Call.answers : Call A → Option (BitVec 32 × Event)
  | applicationReady arep => some (arep, .readyForData)
  | alarmSendAck arep _ => some (arep, .alarm)
  | smReleasedCnf arep => some (arep, .smReleased)
  | cyclicDataPoll => none
  | handlePeriodic => none

def Occurrence.indicates : Occurrence A → Option (BitVec 32 × Event)
  | callback cb => cb.indicates
  | call _ => none

def Occurrence.answers : Occurrence A → Option (BitVec 32 × Event)
  | callback _ => none
  | call c => c.answers

def Occurrence.alarmArg : Occurrence A → Option A
  | callback (.alarmInd _ alarmArg) => some alarmArg
  | _ => none

/-- No callback is about `UINT32_MAX`, which stands for no relation. -/
def Named (callbacks : List (Callback A)) : Prop :=
  ∀ cb ∈ callbacks, ∀ arep event, cb.indicates = some (arep, event) → arep ≠ uint32Max

/-- The states of the main task: the timer ticks between the rounds of the loop, and the
stack runs any callbacks. -/
inductive Reachable (pnetMaxAr : Nat) : App A → Prop where
  | init (alarmArg : A) : Reachable pnetMaxAr (appInit pnetMaxAr alarmArg)
  | tick : Reachable pnetMaxAr app → Reachable pnetMaxAr (mainTimerTick app)
  | round : Reachable pnetMaxAr app → (∀ callbacks ∈ script, Named callbacks) →
      appLoopBody { app with script } = some after → Reachable pnetMaxAr after

section Flags
variable {flags : BitVec 32} {event other : Event}

/-- The number of an event's flag. -/
def Event.index : Event → Nat
  | readyForData => 0
  | timer => 1
  | alarm => 2
  | smReleased => 3
  | abort => 15

theorem bit_eq (event : Event) : event.bit = BitVec.twoPow 32 event.index := by
  cases event <;> decide

theorem index_inj : event.index = other.index ↔ event = other := by
  cases event <;> cases other <;> decide

theorem has_iff : Has flags event ↔ flags.getLsbD event.index = true := by
  have nonzero : BitVec.twoPow 32 event.index ≠ 0 := by cases event <;> decide
  rw [Has, bit_eq, BitVec.and_twoPow]
  split <;> simp_all

theorem has_or : Has (flags ||| event.bit) other ↔ Has flags other ∨ event = other := by
  have small : other.index < 32 := by cases other <;> decide
  simp [has_iff, bit_eq, ← index_inj, small, eq_comm (a := event.index)]

theorem has_clear : Has (flags &&& ~~~event.bit) other ↔ Has flags other ∧ event ≠ other := by
  have small : other.index < 32 := by cases other <;> decide
  simp [has_iff, bit_eq, ← index_inj, small, eq_comm (a := event.index)]

theorem has_zero : ¬ Has 0#32 event := by simp [Has]

theorem has_bit : Has event.bit other ↔ event = other := by
  have set : Has (0#32 ||| event.bit) other ↔ _ := has_or
  simpa [has_zero] using set

theorem has_mask : Has (flags &&& mask) event ↔ Has flags event := by
  have member : mask.getLsbD event.index = true := by cases event <;> decide
  simp [has_iff, member]

end Flags
end Profeth
