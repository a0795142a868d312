import InfixOS.Profeth.Device

/-! What a controller reads, gets back and switches over a whole history of requests. -/
namespace Profeth

variable {build : Build} {device after : Device} {index : Nat}

/-- Neither the table of submodules nor a parameter has changed. -/
structure SameConfig (device after : Device) : Prop where
  slots : after.slots = device.slots
  param1 : after.appParam1 = device.appParam1
  param2 : after.appParam2 = device.appParam2
  gain : after.appParamEchoGain = device.appParamEchoGain

theorem SameConfig.refl (device : Device) : SameConfig device device := ⟨rfl, rfl, rfl, rfl⟩

theorem SameConfig.trans {mid : Device} (one : SameConfig device mid) (two : SameConfig mid after) :
    SameConfig device after :=
  ⟨two.slots.trans one.slots, two.param1.trans one.param1, two.param2.trans one.param2,
    two.gain.trans one.gain⟩

section Frames
variable (device) (received : Nat → Nat → Received) (buttonPressed : Bool)

theorem led_config (outputdata : Byte) (ledState : Bool) :
    SameConfig device (appHandleDataLedState { device with outputdata } ledState) := by
  simp only [appHandleDataLedState]
  split <;> exact ⟨rfl, rfl, rfl, rfl⟩

theorem default_config : SameConfig device (appDataSetDefaultOutputs device) := led_config _ _ _

theorem output_config (submodule : Submodule) (data : List Byte) :
    SameConfig device (appDataSetOutputData device submodule data) := by
  unfold appDataSetOutputData
  split
  · split
    · exact led_config _ _ _
    · exact .refl _
  · split
    · exact led_config _ _ _
    · exact .refl _
  · split <;> exact ⟨rfl, rfl, rfl, rfl⟩
  · exact .refl _

theorem input_config (build : Build) (submodule : Submodule) :
    SameConfig device (appDataGetInputData build device submodule buttonPressed).1 := by
  unfold appDataGetInputData
  split <;> exact ⟨rfl, rfl, rfl, rfl⟩

theorem takeOutput_config (subslot : Subslot) : SameConfig device (takeOutput received device subslot) := by
  unfold takeOutput
  split
  · dsimp only
    split
    · exact default_config _
    · split
      · exact output_config _ _ _
      · exact default_config _
  · exact .refl _

theorem giveInput_config (build : Build) (subslot : Subslot) :
    SameConfig device (giveInput build buttonPressed device subslot).1 := by
  unfold giveInput
  split
  · exact input_config _ _ _ _
  · exact .refl _

theorem pollSubslots_config (build : Build) (subslots : List Subslot) :
    SameConfig device (pollSubslots build received buttonPressed subslots device).1 := by
  induction subslots generalizing device with
  | nil => exact .refl _
  | cons subslot rest ih =>
    unfold pollSubslots
    split
    · exact ((takeOutput_config device received subslot).trans (giveInput_config _ _ _ _)).trans (ih _)
    · exact ih _

/-- A new module changes nothing else. -/
theorem expModule_frame (build : Build) (slot : Nat) (moduleIdent : BitVec 32) (pulled plugged : Bool) :
    ∃ modules, (appExpModuleInd build device slot moduleIdent pulled plugged).1 = { device with modules } := by
  unfold appExpModuleInd
  dsimp only
  split
  · exact ⟨device.modules, rfl⟩
  · split
    · exact ⟨_, rfl⟩
    · exact ⟨_, rfl⟩

end Frames

section Parameters

/-- The parameter of an index. -/
def Device.param (device : Device) (index : Nat) : List Byte :=
  if index = parameter1Idx then device.appParam1
  else if index = parameter2Idx then device.appParam2
  else if index = parameterEchoIdx then device.appParamEchoGain
  else []

/-- What a request has written to a parameter, if it was accepted. -/
def written (index : Nat) : Request × Reply → Option (List Byte)
  | (.write _ _ i data, .ok) => if i = index then some data else none
  | _ => none

def lastWritten (index : Nat) (log : List (Request × Reply)) : Option (List Byte) :=
  (log.filterMap (written index)).getLast?

theorem SameConfig.param (same : SameConfig device after) (index : Nat) :
    after.param index = device.param index := by
  simp only [Device.param, same.param1, same.param2, same.gain]

/-- A parameter of a submodule is one of the three. -/
theorem appGsdmlGetParameterCfg_index {submodule : Submodule} {cfg : GsdmlParam}
    (found : appGsdmlGetParameterCfg submodule index = some cfg) :
    index = parameter1Idx ∨ index = parameter2Idx ∨ index = parameterEchoIdx := by
  simp only [appGsdmlGetParameterCfg, Option.bind_eq_bind, Option.bind_eq_some_iff] at found
  obtain ⟨_, _, found⟩ := found
  split at found
  case isFalse => cases found
  case isTrue =>
    have same : cfg.index = index := by simpa using List.find?_some found
    have member := List.mem_of_find?_eq_some found
    simp only [appGsdmlParameters, List.mem_cons, List.not_mem_nil, or_false] at member
    rcases member with rfl | rfl | rfl
    · exact .inl same.symm
    · exact .inr (.inl same.symm)
    · exact .inr (.inr same.symm)

theorem appDataReadParameter_eq {submodule : Submodule} {length : Nat} {bytes : List Byte}
    (read : appDataReadParameter device submodule index length = some bytes) :
    bytes = device.param index := by
  simp only [appDataReadParameter, Option.bind_eq_bind, Option.bind_eq_some_iff] at read
  obtain ⟨cfg, -, read⟩ := read
  unfold Device.param
  split at read
  · cases read
  · grind

theorem appDataWriteParameter_param {submodule : Submodule} {data : List Byte} {i : Nat}
    (wrote : appDataWriteParameter device submodule i data = some after) (index : Nat) :
    after.param index = if i = index then data else device.param index := by
  simp only [appDataWriteParameter, Option.bind_eq_bind, Option.bind_eq_some_iff] at wrote
  obtain ⟨cfg, found, wrote⟩ := wrote
  split at wrote
  case isTrue => cases wrote
  case isFalse =>
    have differ : parameter1Idx ≠ parameter2Idx ∧ parameter1Idx ≠ parameterEchoIdx ∧
        parameter2Idx ≠ parameterEchoIdx := by decide
    rcases appGsdmlGetParameterCfg_index found with rfl | rfl | rfl
    all_goals
      simp only [if_true, if_neg differ.1.symm, if_neg differ.2.1.symm, if_neg differ.2.2.symm] at wrote
      cases wrote
      unfold Device.param
      grind

theorem expSubmodule_params (slot subslot : Nat) (submodule : Submodule) (expData : DataCfg)
    (pulled plugged : Bool) : (appExpSubmoduleInd build device slot subslot submodule expData pulled
      plugged).1.param index = device.param index := by
  unfold appExpSubmoduleInd
  dsimp only
  split <;> rfl

/-- Only an accepted write changes a parameter. -/
theorem handle_param (request : Request) : (handle build device request).1.param index =
    (written index (request, (handle build device request).2)).getD (device.param index) := by
  cases request with
  | expModule slot moduleIdent pulled plugged =>
    obtain ⟨modules, same⟩ := expModule_frame device build slot moduleIdent pulled plugged
    rw [handle, same]
    rfl
  | expSubmodule slot subslot submodule expData pulled plugged => exact expSubmodule_params ..
  | write slot subslot i data =>
    simp only [handle, appWriteInd]
    split
    · rfl
    · split
      case _ wrote =>
        rw [appDataWriteParameter_param wrote]
        simp only [written]
        split <;> rfl
      · rfl
  | read slot subslot index length => rfl
  | release => exact (default_config device).param index
  | abort => exact (default_config device).param index
  | newDataStatus isRunning isValid =>
    simp only [handle, appNewDataStatusInd]
    split
    · exact (default_config device).param index
    · rfl
  | poll received buttonPressed => exact (pollSubslots_config device received buttonPressed build _).param index

theorem run_param (requests : List Request) : (run build requests).device.param index =
    (lastWritten index (run build requests).log).getD (build.start.param index) := by
  refine run_invariant (P := fun history => history.device.param index =
    (lastWritten index history.log).getD (build.start.param index)) rfl ?_ requests
  intro history request kept
  simp only [History.next, lastWritten, List.filterMap_append, List.getLast?_append]
  rw [handle_param, kept]
  cases given : written index (request, (handle build history.device request).2) with
  | none => simp [given, lastWritten]
  | some data => simp [given]

/-- A controller reads the bytes that were last accepted for the parameter, whichever submodule
it reads or they were written through. -/
theorem reads_last_written (requests : List Request) (slot subslot length : Nat) {bytes : List Byte}
    (replied : (handle build (run build requests).device (.read slot subslot index length)).2 =
      .data bytes) :
    bytes = (lastWritten index (run build requests).log).getD (build.start.param index) := by
  simp only [handle, appReadInd] at replied
  split at replied
  · cases replied
  · split at replied
    case _ read =>
      cases replied
      rw [appDataReadParameter_eq read, run_param]
    · cases replied

/-- Two submodules share the parameter. -/
theorem reads_last_written_shared :
    let build : Build := ⟨5, 3, true, fun _ _ => 0⟩
    let requests := [.expSubmodule 1 1 .digitalInOut ⟨.io, 1, 1⟩ false true,
      .expSubmodule 2 1 .digitalInOut ⟨.io, 1, 1⟩ false true, .write 1 1 123 [1, 2, 3, 4]]
    [1, 2, 3, 4] = (lastWritten 123 (run build requests).log).getD (build.start.param 123) :=
  reads_last_written _ 2 1 8 rfl

end Parameters

section Led

/-- A poll in which a byte with the highest bit set has arrived. -/
def Request.Lights : Request → Prop
  | .poll received _ => ∃ slot subslot byte, received slot subslot = ⟨[byte], true⟩ ∧ byte.msb = true
  | _ => False

/-- The LED is as the last call wanted it, and shows the output data. -/
def Device.Shows (device : Device) : Prop :=
  device.previousLedState = device.led ∧ device.led = device.outputdata.msb

theorem led_outputdata (outputdata : Byte) (ledState : Bool) :
    (appHandleDataLedState { device with outputdata } ledState).outputdata = outputdata := by
  simp only [appHandleDataLedState]
  split <;> rfl

theorem led_shows (shows : device.Shows) (outputdata : Byte) :
    (appHandleDataLedState { device with outputdata } outputdata.msb).Shows := by
  unfold Device.Shows
  rw [led_outputdata]
  simp only [appHandleDataLedState]
  split
  · exact ⟨rfl, rfl⟩
  case isFalse unchanged =>
    have same : outputdata.msb = device.previousLedState := not_not.mp unchanged
    exact ⟨same.trans shows.1, (same.trans shows.1).symm⟩

/-- What holds of the device without the input data and is kept by the output data of a subslot
holds after a poll. -/
theorem pollSubslots_keeps {P : Device → Prop} {received : Nat → Nat → Received} {buttonPressed : Bool}
    (input : ∀ device subslot, P device → P (giveInput build buttonPressed device subslot).1)
    (output : ∀ device subslot, P device → P (takeOutput received device subslot))
    (subslots : List Subslot) :
    ∀ {device : Device}, P device → P (pollSubslots build received buttonPressed subslots device).1 := by
  induction subslots with
  | nil => exact fun held => held
  | cons subslot rest ih =>
    intro device held
    unfold pollSubslots
    split
    · exact ih (input _ _ (output _ _ held))
    · exact ih held

/-- The input data touch neither the LED nor the output data. -/
theorem giveInput_led (build : Build) (buttonPressed : Bool) (device : Device) (subslot : Subslot) :
    (giveInput build buttonPressed device subslot).1.led = device.led ∧
      (giveInput build buttonPressed device subslot).1.previousLedState = device.previousLedState ∧
      (giveInput build buttonPressed device subslot).1.outputdata = device.outputdata := by
  simp only [giveInput, appDataGetInputData]
  split
  · split <;> exact ⟨rfl, rfl, rfl⟩
  · exact ⟨rfl, rfl, rfl⟩

/-- The output data of a subslot: the byte that has arrived, the default, or what they were. -/
theorem takeOutput_cases (received : Nat → Nat → Received) (device : Device) (subslot : Subslot) :
    takeOutput received device subslot = appDataSetDefaultOutputs device ∨
    (∃ slot number byte, received slot number = ⟨[byte], true⟩ ∧ takeOutput received device subslot =
      appHandleDataLedState { device with outputdata := byte } byte.msb) ∨
    ∃ data, takeOutput received device subslot = { device with echoOutputdata := data } := by
  have same : device = { device with echoOutputdata := device.echoOutputdata } := rfl
  simp only [takeOutput]
  split
  case isFalse => exact .inr (.inr ⟨_, same⟩)
  case isTrue =>
    split
    · exact .inl rfl
    · split
      case isFalse => exact .inl rfl
      case isTrue good =>
        have arrived (byte : Byte) (data : (received subslot.slotNbr subslot.subslotNbr).data = [byte]) :
            received subslot.slotNbr subslot.subslotNbr = ⟨[byte], true⟩ := by
          rw [← data, ← good]
        unfold appDataSetOutputData
        split
        · split
          case _ byte data => exact .inr (.inl ⟨_, _, byte, arrived byte data, rfl⟩)
          · exact .inr (.inr ⟨_, same⟩)
        · split
          case _ byte data => exact .inr (.inl ⟨_, _, byte, arrived byte data, rfl⟩)
          · exact .inr (.inr ⟨_, same⟩)
        · split
          · exact .inr (.inr ⟨_, rfl⟩)
          · exact .inr (.inr ⟨_, same⟩)
        · exact .inr (.inr ⟨_, same⟩)

/-- A property of the LED that the default has, and every byte that has arrived. -/
theorem handle_led {P : Device → Prop} (request : Request) (held : P device)
    (frame : ∀ device after : Device, P device → after.led = device.led →
      after.previousLedState = device.previousLedState → after.outputdata = device.outputdata → P after)
    (default : ∀ device, P device → P (appDataSetDefaultOutputs device))
    (byte : ∀ device received buttonPressed slot subslot byte, request = .poll received buttonPressed →
      received slot subslot = ⟨[byte], true⟩ → P device →
      P (appHandleDataLedState { device with outputdata := byte } byte.msb)) :
    P (handle build device request).1 := by
  cases request with
  | expModule slot moduleIdent pulled plugged =>
    obtain ⟨modules, same⟩ := expModule_frame device build slot moduleIdent pulled plugged
    rw [handle, same]
    exact frame _ _ held rfl rfl rfl
  | expSubmodule slot subslot submodule expData pulled plugged =>
    simp only [handle, appExpSubmoduleInd]
    split <;> exact frame _ _ held rfl rfl rfl
  | write slot subslot i data =>
    simp only [handle, appWriteInd]
    split
    · exact held
    · split
      case _ wrote =>
        simp only [appDataWriteParameter, Option.bind_eq_bind, Option.bind_eq_some_iff] at wrote
        obtain ⟨cfg, -, wrote⟩ := wrote
        refine frame _ _ held ?_ ?_ ?_
        all_goals grind
      · exact held
  | read slot subslot index length => exact held
  | release => exact default _ held
  | abort => exact default _ held
  | newDataStatus isRunning isValid =>
    simp only [handle, appNewDataStatusInd]
    split
    · exact default _ held
    · exact held
  | poll received buttonPressed =>
    refine pollSubslots_keeps (fun device subslot held => ?_) (fun device subslot held => ?_) _ held
    · obtain ⟨led, previous, outputdata⟩ := giveInput_led build buttonPressed device subslot
      exact frame _ _ held led previous outputdata
    · rcases takeOutput_cases received device subslot with same | ⟨_, _, b, arrived, same⟩ | ⟨data, same⟩
      · rw [same]
        exact default _ held
      · rw [same]
        exact byte _ _ _ _ _ b rfl arrived held
      · rw [same]
        exact frame _ _ held rfl rfl rfl

theorem handle_shows (request : Request) (shows : device.Shows) : (handle build device request).1.Shows := by
  refine handle_led request shows (fun device after shows led previous outputdata => ?_)
    (fun device shows => led_shows shows 0) fun device _ _ _ _ byte _ _ shows => led_shows shows byte
  exact ⟨previous.trans (shows.1.trans led.symm), led.trans (shows.2.trans (by rw [outputdata]))⟩

theorem run_shows (requests : List Request) : (run build requests).device.Shows :=
  run_invariant (P := fun history => history.device.Shows) ⟨rfl, by simp [Build.start]⟩
    (fun _ request shows => handle_shows request shows) requests

/-- The requests that set the outputs to their default. -/
def Request.Stops : Request → Prop
  | .release => True
  | .abort => True
  | .newDataStatus isRunning isValid => isRunning = false ∨ isValid = false
  | _ => False

theorem default_dark : (appDataSetDefaultOutputs device).outputdata.msb = false := by
  rw [appDataSetDefaultOutputs, led_outputdata]
  decide

theorem handle_stops {request : Request} (stops : request.Stops) :
    (handle build device request).1.outputdata.msb = false := by
  cases request with
  | release => exact default_dark
  | abort => exact default_dark
  | newDataStatus isRunning isValid =>
    simp only [handle, appNewDataStatusInd, if_pos (show isRunning = false ∨ isValid = false from stops)]
    exact default_dark
  | expModule slot moduleIdent pulled plugged => exact stops.elim
  | expSubmodule slot subslot submodule expData pulled plugged => exact stops.elim
  | write slot subslot i data => exact stops.elim
  | read slot subslot index length => exact stops.elim
  | poll received buttonPressed => exact stops.elim

theorem handle_dark {request : Request} (lights : ¬ request.Lights) (dark : device.outputdata.msb = false) :
    (handle build device request).1.outputdata.msb = false := by
  refine handle_led (P := fun device => device.outputdata.msb = false) request dark
    (fun _ _ dark _ _ same => by rw [same]; exact dark) (fun _ _ => default_dark) ?_
  rintro device received buttonPressed slot subslot byte rfl arrived -
  rw [led_outputdata]
  by_contra lit
  exact lights ⟨slot, subslot, byte, arrived, by simpa using lit⟩

/-- The LED always shows the output data. Once a connection is released or aborted, or its
data stop or are not valid, it is off until a byte with the highest bit set arrives. -/
theorem led_off_until_data (requests quiet : List Request) {stop : Request} (stops : stop.Stops)
    (dark : ∀ request ∈ quiet, ¬ request.Lights) :
    (run build requests).device.led = (run build requests).device.outputdata.msb ∧
      (run build (requests ++ stop :: quiet)).device.led = false := by
  refine ⟨(run_shows requests).2, ?_⟩
  rw [(run_shows _).2]
  induction quiet using List.reverseRecOn with
  | nil =>
    rw [run_concat]
    exact handle_stops stops
  | append_singleton quiet request ih =>
    rw [← List.cons_append, ← List.append_assoc, run_concat]
    exact handle_dark (dark request (by simp)) (ih fun r member => dark r (by simp [member]))

theorem led_off_until_data_aborted :
    let build : Build := ⟨5, 3, true, fun _ _ => 0⟩
    let requests := [.expSubmodule 1 1 .digitalOut ⟨.output, 0, 1⟩ false true,
      .poll (fun _ _ => ⟨[128], true⟩) false]
    (run build requests).device.led = true ∧
      (run build (requests ++ [.abort, .poll (fun _ _ => ⟨[128], false⟩) false])).device.led = false := by
  have stops : Request.abort.Stops := trivial
  have dark : ∀ request ∈ [Request.poll (fun _ _ => ⟨[128], false⟩) false], ¬ request.Lights := by
    simp [Request.Lights]
  exact ⟨by decide +kernel, (led_off_until_data _ _ stops dark).2⟩

end Led

section Echo

/-- What is plugged as an echo submodule is polled with its sizes. -/
def EchoPlugged (slots : Slots) : Prop :=
  ∀ subslots ∈ slots, ∀ s ∈ subslots, s.submodule = .echo →
    s.plugged = true ∧ s.cyclicCallback = true ∧ s.dataCfg = ⟨.io, 8, 8⟩

theorem EchoPlugged.modify {slots : Slots} (held : EchoPlugged slots) (slot : Nat)
    {change : List Subslot → List Subslot} (kept : ∀ subslots, ∀ s ∈ change subslots, s ∈ subslots ∨
      (s.submodule = .echo → s.plugged = true ∧ s.cyclicCallback = true ∧ s.dataCfg = ⟨.io, 8, 8⟩)) :
    EchoPlugged (slots.modify slot change) := by
  intro subslots member s inside echo
  obtain ⟨i, small, rfl⟩ := List.getElem_of_mem member
  rw [List.getElem_modify] at inside
  have old := List.getElem_mem (l := slots) (by simpa using small)
  split at inside
  · rcases kept _ s inside with before | new
    · exact held _ old s before echo
    · exact new echo
  · exact held _ old s inside echo

theorem handle_echoPlugged (request : Request) (held : EchoPlugged device.slots) :
    EchoPlugged (handle build device request).1.slots := by
  cases request with
  | expModule slot moduleIdent pulled plugged =>
    obtain ⟨modules, same⟩ := expModule_frame device build slot moduleIdent pulled plugged
    rw [handle, same]
    exact held
  | expSubmodule slot subslot submodule expData pulled plugged =>
    have pull : EchoPlugged (if pulled then
        appUtilsPullSubmodule build.pnetMaxSubslots device.slots slot subslot else device.slots) := by
      unfold appUtilsPullSubmodule
      split
      · split
        · exact held
        · refine held.modify slot fun subslots s member => ?_
          split at member
          · rcases List.mem_or_eq_of_mem_set member with old | rfl
            · exact .inl old
            · exact .inr fun echo => by cases echo
          · exact .inl member
      · exact held
    simp only [handle, appExpSubmoduleInd]
    split
    · refine pull.modify slot fun subslots s member => ?_
      split at member
      · rcases List.mem_or_eq_of_mem_set member with old | rfl
        · exact .inl old
        · refine .inr fun echo => ?_
          cases echo
          exact ⟨rfl, rfl, rfl⟩
      · exact .inl member
    · exact pull
  | write slot subslot i data =>
    simp only [handle, appWriteInd]
    split
    · exact held
    · split
      case _ wrote =>
        simp only [appDataWriteParameter, Option.bind_eq_bind, Option.bind_eq_some_iff] at wrote
        obtain ⟨cfg, -, wrote⟩ := wrote
        grind
      · exact held
  | read slot subslot index length => exact held
  | release => exact (default_config device).slots ▸ held
  | abort => exact (default_config device).slots ▸ held
  | newDataStatus isRunning isValid =>
    simp only [handle, appNewDataStatusInd]
    split
    · exact (default_config device).slots ▸ held
    · exact held
  | poll received buttonPressed =>
    exact (pollSubslots_config device received buttonPressed build _).slots ▸ held

theorem run_echoPlugged (requests : List Request) : EchoPlugged (run build requests).device.slots := by
  refine run_invariant (P := fun history => EchoPlugged history.device.slots) ?_
    (fun _ request held => handle_echoPlugged request held) requests
  intro subslots member s inside echo
  cases List.eq_of_mem_replicate member
  cases List.eq_of_mem_replicate inside
  cases echo

/-- What an echo submodule sends back. -/
def echoed (build : Build) (gain : BitVec 32) (data : List Byte) : List Byte :=
  toBe32 (build.scale (fromBe32 (data.take 4)) gain) ++ toBe32 (fromBe32 (data.drop 4) * gain)

theorem callback_echo (build : Build) (device : Device) {received : Nat → Nat → Received} {s : Subslot}
    {data : List Byte} (buttonPressed : Bool) (echo : s.submodule = .echo) (cfg : s.dataCfg = ⟨.io, 8, 8⟩)
    (slot : s.slotNbr ≠ pnetSlotDapIdent) (arrived : received s.slotNbr s.subslotNbr = ⟨data, true⟩)
    (length : data.length = 8) :
    (appCyclicDataCallback build received buttonPressed device s).2 =
      [⟨s.slotNbr, s.subslotNbr, some (echoed build (fromBe32 device.appParamEchoGain) data)⟩] := by
  simp [appCyclicDataCallback, giveInput, takeOutput, appDataSetOutputData, appDataGetInputData, echoed,
    echo, cfg, slot, arrived, length]

theorem pollSubslots_echo {received : Nat → Nat → Received} {s : Subslot} {data : List Byte}
    (buttonPressed : Bool) (echo : s.submodule = .echo)
    (set : s.plugged = true ∧ s.cyclicCallback = true ∧ s.dataCfg = ⟨.io, 8, 8⟩)
    (slot : s.slotNbr ≠ pnetSlotDapIdent) (arrived : received s.slotNbr s.subslotNbr = ⟨data, true⟩)
    (length : data.length = 8) (subslots : List Subslot) :
    ∀ {device : Device}, s ∈ subslots →
      ⟨s.slotNbr, s.subslotNbr, some (echoed build (fromBe32 device.appParamEchoGain) data)⟩ ∈
        (pollSubslots build received buttonPressed subslots device).2 := by
  induction subslots with
  | nil => exact fun member => nomatch member
  | cons t rest ih =>
    intro device member
    unfold pollSubslots
    rcases List.mem_cons.mp member with rfl | behind
    · rw [if_pos ⟨set.1, set.2.1⟩]
      have own := callback_echo build device buttonPressed echo set.2.2 slot arrived length
      simp [own]
    · split
      · -- the subslots before it leave the gain as it is
        have gain := ((takeOutput_config device received t).trans
          (giveInput_config _ buttonPressed build t)).gain
        rw [← gain]
        exact List.mem_append_right _ (ih behind)
      · exact ih behind

/-- An echo submodule sends back what has arrived times the gain that was last accepted. Until
one is, that is 1 as the processor stores it. -/
theorem echo_scaled (requests : List Request) (received : Nat → Nat → Received) (buttonPressed : Bool)
    {s : Subslot} {data : List Byte}
    (plugged : s ∈ (run build requests).device.slots.flatten) (echo : s.submodule = .echo)
    (slot : s.slotNbr ≠ pnetSlotDapIdent) (arrived : received s.slotNbr s.subslotNbr = ⟨data, true⟩)
    (length : data.length = 8) :
    ∃ inputs, (handle build (run build requests).device (.poll received buttonPressed)).2 = .sent inputs ∧
      ⟨s.slotNbr, s.subslotNbr, some (echoed build (fromBe32 ((lastWritten parameterEchoIdx
        (run build requests).log).getD (build.start.param parameterEchoIdx))) data)⟩ ∈ inputs ∧
      fromBe32 (build.start.param parameterEchoIdx) = if build.littleEndian then 0x1000000 else 1 := by
  obtain ⟨subslots, member, inside⟩ := List.mem_flatten.mp plugged
  refine ⟨_, rfl, ?_, ?_⟩
  · rw [← run_param]
    exact pollSubslots_echo buttonPressed echo (run_echoPlugged requests subslots member s inside echo)
      slot arrived length _ plugged
  · cases order : build.littleEndian <;> simp [Device.param, Build.start, order, fromBe32, parameter1Idx,
      parameter2Idx, parameterEchoIdx]

theorem echo_scaled_unset :
    let build : Build := ⟨5, 3, true, fun _ _ => 0⟩
    let requests := [.expSubmodule 1 1 .echo ⟨.io, 8, 8⟩ false true]
    ∃ inputs, (handle build (run build requests).device
        (.poll (fun _ _ => ⟨[0, 0, 0, 0, 0, 0, 0, 3], true⟩) false)).2 = .sent inputs ∧
      ⟨1, 1, some [0, 0, 0, 0, 3, 0, 0, 0]⟩ ∈ inputs := by
  intro build requests
  have plugged : ⟨true, true, 1, 1, .echo, ⟨.io, 8, 8⟩, true⟩ ∈ (run build requests).device.slots.flatten := by
    decide +kernel
  obtain ⟨inputs, sent, member, -⟩ := echo_scaled requests
    (fun _ _ => ⟨[0, 0, 0, 0, 0, 0, 0, 3], true⟩) false plugged rfl (by decide) rfl rfl
  have value : echoed build (fromBe32 ((lastWritten parameterEchoIdx (run build requests).log).getD
      (build.start.param parameterEchoIdx))) [0, 0, 0, 0, 0, 0, 0, 3] = [0, 0, 0, 0, 3, 0, 0, 0] := by
    decide +kernel
  rw [value] at member
  exact ⟨inputs, sent, member⟩

end Echo
end Profeth
