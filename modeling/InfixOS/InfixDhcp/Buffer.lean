import InfixOS.InfixDhcp.Following

/-! The memory that `add` takes from its stack for the client identifier, and what
sprintf writes into it. Sizes are in bytes, as `strlen` counts them. -/
namespace InfixDhcp
open Core Lyx Posix Yang

/-- What one pass of the loop calls. -/
inductive Call where
  | add (ifname : String) (clientId : Option String)
  | del (ifname : String)
  deriving DecidableEq, Repr

def Call.run (host : Host) (finit : Finit) : Call → Finit
  | .add ifname clientId => InfixDhcp.add host ifname clientId finit
  | .del ifname => InfixDhcp.del host ifname finit

def callOf (ena : Bool) (cifs : List Ptr) (dif : Ptr) : Option Call :=
  if lydxGetOp dif = .delete then some (.del (ifName dif))
  else
    (cifs.find? fun cif => ifName cif = ifName dif).map fun cif =>
      if !ena || !lydxIsEnabled cif "enabled" then .del (ifName dif)
      else .add (ifName dif) (lydxGetCattr cif "client-id")

theorem changeOne_eq (host : Host) (ena : Bool) (cifs : List Ptr) (finit : Finit) (dif : Ptr) :
    changeOne host ena cifs finit dif = ((callOf ena cifs dif).map (Call.run host finit)).getD finit := by
  rw [changeOne, callOf]
  split
  · rfl
  · cases cifs.find? fun cif => ifName cif = ifName dif with
    | none => rfl
    | some cif =>
      simp only [Option.map_some, Option.getD_some]
      split
      · rfl
      · rfl

/-- The calls of a callback, in their order. -/
def calls (session : Session) (event : SrEvent) : List Call :=
  match event, session.getData, session.getDiff with
  | .done, (.ok, cfg), (.ok, diff) =>
    let ena := lydxIsEnabled (lydxGetDescendant (.root cfg) ["dhcp-client"]) "enabled"
    (clientIfs diff).filterMap (callOf ena (clientIfs cfg))
  | _, _, _ => []

theorem foldl_changeOne (host : Host) (ena : Bool) (cifs difs : List Ptr) (finit : Finit) :
    difs.foldl (changeOne host ena cifs) finit = (difs.filterMap (callOf ena cifs)).foldl (Call.run host) finit := by
  induction difs generalizing finit with
  | nil => rfl
  | cons dif rest ih =>
    rw [List.foldl_cons, ih, changeOne_eq]
    cases call : callOf ena cifs dif with
    | none => simp [call]
    | some c => simp [call]

/-- The callback does nothing but these calls. -/
theorem clientChange_calls (host : Host) (session : Session) (event : SrEvent) (finit : Finit) :
    (clientChange host session event finit).2 = (calls session event).foldl (Call.run host) finit := by
  obtain ⟨⟨dataErr, cfg⟩, ⟨diffErr, diff⟩⟩ := session
  cases event with
  | done =>
    cases dataErr with
    | ok =>
      cases diffErr with
      | ok => exact foldl_changeOne host _ _ _ _
      | _ => rfl
    | _ => cases diffErr <;> rfl
  | _ => rfl

/-- A buffer of `size` bytes into which `written` are put. -/
structure Buffer where
  size : Nat
  written : Nat
  deriving DecidableEq, Repr

/-- The buffer of `add`, if it comes to be used. The text ends with a zero. -/
def argsBuffer (host : Host) (ifname : String) (clientId : Option String) : Option Buffer :=
  if host.opens (Finit.available ("dhcp-" ++ ifname)) then
    match clientId with
    | some id => if id = "" then none else some ⟨id.utf8ByteSize + 12, (clientIdArgs (some id)).utf8ByteSize + 1⟩
    | none => none
  else none

/-- No call of `add` writes past its buffer. -/
def ArgsFit (host : Host) (session : Session) (event : SrEvent) : Prop :=
  ∀ ifname clientId, .add ifname clientId ∈ calls session event →
    ∀ buffer, argsBuffer host ifname clientId = some buffer → buffer.written ≤ buffer.size

theorem clientIdArgs_size {id : String} (nonempty : id ≠ "") : (clientIdArgs (some id)).utf8ByteSize = id.utf8ByteSize + 13 := by
  have front : ("-C -x 61:'\"" : String).utf8ByteSize = 11 := by decide +kernel
  have back : ("\"'" : String).utf8ByteSize = 2 := by decide +kernel
  rw [clientIdArgs, if_neg nonempty, String.utf8ByteSize_append, String.utf8ByteSize_append, front, back]
  omega

/-- The text is two bytes longer than the buffer, whatever the client identifier is:
the calls stay within their buffers only if none has one, or its file cannot be
opened. -/
theorem args_fit_iff (host : Host) (session : Session) (event : SrEvent) :
    ArgsFit host session event ↔
      ∀ ifname id, .add ifname (some id) ∈ calls session event →
        host.opens (Finit.available ("dhcp-" ++ ifname)) = true → id = "" := by
  constructor
  · intro fits ifname id called opens
    by_contra nonempty
    have buffer : argsBuffer host ifname (some id) =
        some ⟨id.utf8ByteSize + 12, (clientIdArgs (some id)).utf8ByteSize + 1⟩ := by
      rw [argsBuffer, if_pos opens]
      exact if_neg nonempty
    have within := fits ifname (some id) called _ buffer
    simp only [clientIdArgs_size nonempty] at within
    omega
  · intro none ifname clientId called buffer used
    by_cases opens : host.opens (Finit.available ("dhcp-" ++ ifname)) = true
    · cases clientId with
      | none => simp [argsBuffer] at used
      | some id => simp [argsBuffer, none ifname id called opens] at used
    · simp [argsBuffer, opens] at used

/-- A client with an identifier is configured for the first time. -/
def identified : Session :=
  let cfg : Config := ⟨true, true, [⟨"eth0", true, true, some "infix"⟩], by decide⟩
  ⟨(.ok, cfg.tree), (.ok, diffSiblings Config.empty.tree cfg.tree)⟩

/-- Nineteen bytes go into a buffer of seventeen. -/
theorem identifier_overruns :
    calls identified .done = [.add "eth0" (some "infix")] ∧
    argsBuffer calmHost "eth0" (some "infix") = some ⟨17, 19⟩ ∧ ¬ArgsFit calmHost identified .done := by
  have called : calls identified .done = [.add "eth0" (some "infix")] := by decide +kernel
  have buffer : argsBuffer calmHost "eth0" (some "infix") = some ⟨17, 19⟩ := by decide +kernel
  refine ⟨called, buffer, fun fits => ?_⟩
  have within := fits "eth0" (some "infix") (by rw [called]; exact List.mem_cons_self) _ buffer
  exact absurd within (by decide)

end InfixDhcp
