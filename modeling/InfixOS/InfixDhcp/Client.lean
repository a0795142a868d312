import InfixOS.Core.Finit
import InfixOS.Core.Lyx
import InfixOS.Core.Sysrepo

/-! The DHCP clients of src/confd/src/confd/infix-dhcp.c. A change callback adds or
deletes one service for each interface that is in the diff. -/
namespace InfixDhcp
open Core Lyx Posix Yang

/-- What the callback reads from its session. -/
structure Session where
  getData : SrError × List Node
  getDiff : SrError × List Node

/-- What the system calls report, and what the shell makes of other lines. -/
structure Host where
  opens : String → Bool
  interpret : String → Finit → Finit

/-- The argument that sets the client identifier. -/
def clientIdArgs (clientId : Option String) : String :=
  match clientId with
  | some id => if id = "" then "" else "-C -x 61:'\"" ++ id ++ "\"'"
  | none => ""

def serviceLine (ifname : String) (clientId : Option String) : String :=
  "service name:dhcp :" ++ ifname ++ " udhcpc -f -S -R -i " ++ ifname ++ " " ++ clientIdArgs clientId ++
    " -- DHCP client @" ++ ifname ++ "\n"

def add (host : Host) (ifname : String) (clientId : Option String) (finit : Finit) : Finit :=
  let fn := Finit.available ("dhcp-" ++ ifname)
  if host.opens fn then
    { finit with files := finit.files.write fn (serviceLine ifname clientId) }.systemf host.interpret
      ("initctl -bfq enable dhcp-" ++ ifname)
  else finit

def del (host : Host) (ifname : String) (finit : Finit) : Finit :=
  finit.systemf host.interpret ("initctl -bfq delete dhcp-" ++ ifname)

/-- The key of a list entry, which is always there. -/
def ifName (entry : Ptr) : String := (lydxGetCattr entry "if-name").getD ""

def clientIfs (tree : List Node) : List Ptr :=
  lyxListForEach (lydxGetDescendant (.root tree) ["dhcp-client", "client-if"]) "client-if"

/-- One pass of the loop over the entries of the diff. -/
def changeOne (host : Host) (ena : Bool) (cifs : List Ptr) (finit : Finit) (dif : Ptr) : Finit :=
  if lydxGetOp dif = .delete then del host (ifName dif) finit
  else
    match cifs.find? fun cif => ifName cif = ifName dif with
    | none => finit
    | some cif =>
      if !ena || !lydxIsEnabled cif "enabled" then del host (ifName dif) finit
      else add host (ifName dif) (lydxGetCattr cif "client-id") finit

def clientChange (host : Host) (session : Session) (event : SrEvent) (finit : Finit) : SrError × Finit :=
  match event with
  | .done =>
    match session.getData, session.getDiff with
    | (.ok, cfg), (.ok, diff) =>
      let ena := lydxIsEnabled (lydxGetDescendant (.root cfg) ["dhcp-client"]) "enabled"
      (.ok, (clientIfs diff).foldl (changeOne host ena (clientIfs cfg)) finit)
    | (.ok, _), (err, _) => (err, finit)
    | (err, _), _ => (err, finit)
  | _ => (.ok, finit)

/-- An entry of the list `client-if`. The flag tells a default from a value that
was set. -/
structure ClientIf where
  ifName : String
  enabled : Bool
  isDefault : Bool
  clientId : Option String
  deriving DecidableEq

/-- A configuration of the module, with the keys of its list apart. -/
structure Config where
  enabled : Bool
  isDefault : Bool
  clients : List ClientIf
  unique : (clients.map ClientIf.ifName).Nodup

/-- Nothing is configured, so only the default is there. -/
def Config.empty : Config := ⟨true, true, [], List.nodup_nil⟩

def boolText (b : Bool) : String := if b then "true" else "false"

def ClientIf.leaves (c : ClientIf) : List Node :=
  .leaf "enabled" (boolText c.enabled) c.isDefault .plain ::
    (c.clientId.map fun id => .leaf "client-id" id false .plain).toList

def ClientIf.node (c : ClientIf) : Node :=
  .inner "client-if" ["if-name"] .plain (.leaf "if-name" c.ifName false .plain :: c.leaves)

def Config.nodes (cfg : Config) : List Node :=
  .leaf "enabled" (boolText cfg.enabled) cfg.isDefault .plain :: cfg.clients.map ClientIf.node

/-- The data tree. -/
def Config.tree (cfg : Config) : List Node := [.inner "dhcp-client" [] .plain cfg.nodes]

/-- The running configuration and its services. -/
structure Running where
  cfg : Config
  finit : Finit

/-- The DONE of a transaction that replaces the configuration. -/
def Running.commit (host : Host) (s : Running) (new : Config) : Running :=
  ⟨new, (clientChange host ⟨(.ok, new.tree), (.ok, diffSiblings s.cfg.tree new.tree)⟩ .done s.finit).2⟩

/-- The interface is to have a client. -/
def Wants (cfg : Config) (ifname : String) : Prop :=
  cfg.enabled = true ∧ ∃ c ∈ cfg.clients, c.ifName = ifname ∧ c.enabled = true

instance (cfg : Config) (ifname : String) : Decidable (Wants cfg ifname) :=
  inferInstanceAs (Decidable (_ ∧ ∃ c ∈ cfg.clients, _ ∧ _))

/-- The services are those that the configuration wants. -/
def Follows (s : Running) : Prop := ∀ ifname, s.finit.enabled ("dhcp-" ++ ifname) = true ↔ Wants s.cfg ifname

end InfixDhcp
