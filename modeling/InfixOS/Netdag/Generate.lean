import InfixOS.Core.Lyx
import InfixOS.Core.Sysrepo
import InfixOS.Dagger.Lifecycle
import InfixOS.Exec.Program

/-! The interface generator and the callback ifchange of
src/confd/src/confd/ietf-interfaces.c. The generator runs on the base directory of
dagger and on the live system, which it reads (link kinds, link indices) and, in one
place, changes. What it prints into a script is one piece for each call of fprintf,
fputs or fputc; a line may consist of several. Interface names stand for words the
shell takes as written. -/
namespace Netdag
open Core Dagger Exec Lyx Posix Yang

/-- How a link came about. The address family is that of its own fields. -/
inductive LinkKind where
  | ether
  | loopback
  | bridge
  | veth (peer : String)
  | vlan (parent : String)
  deriving DecidableEq, Repr

inductive Family where
  | ipv4
  | ipv6
  deriving DecidableEq, Repr

structure Link where
  name : String
  kind : LinkKind
  inet : List String
  inet6 : List String
  deriving DecidableEq, Repr

def Link.addresses (l : Link) : Family → List String
  | .ipv4 => l.inet
  | .ipv6 => l.inet6

def Link.flush (l : Link) : Family → Link
  | .ipv4 => { l with inet := [] }
  | .ipv6 => { l with inet6 := [] }

structure Kernel where
  links : List Link
  deriving DecidableEq, Repr

namespace Kernel

def find (k : Kernel) (ifname : String) : Option Link := k.links.find? fun l => l.name = ifname

/-- `if_nametoindex` gives an index. -/
def hasLink (k : Kernel) (ifname : String) : Bool := (k.find ifname).isSome

/-- `iface_is_phys`: an Ethernet link without an `info_kind`. -/
def ifaceIsPhys (k : Kernel) (ifname : String) : Bool :=
  match k.find ifname with
  | some l => l.kind = .ether
  | none => false

/-- `ip -4 addr flush dev ifname`, or `-6`. -/
def addrFlush (k : Kernel) (family : Family) (ifname : String) : Kernel :=
  { k with links := k.links.map fun l => if l.name = ifname then l.flush family else l }

end Kernel

/-- What printf makes of a string that may be a null pointer. -/
def str (s : Option String) : String := s.getD "(null)"

inductive Piece where
  | initctlReload
  | addressDelete (ip prefixLength : Option String) (ifname : String)
  | addressAdd (command : String) (ip prefixLength : Option String) (ifname : String)
  | addrgenmode (mode : String)
  | zeroconfEnable (ifname : String)
  | zeroconfDisable (ifname : String)
  | forwarding (family ifname : String) (enabled : Bool)
  | linkAddVeth (ifname : String) (peer : Option String)
  | linkAddVlan (ifname : String) (parent : Option String)
  | vlanProto (proto : String)
  | vlanId (id : Option String)
  | newline
  | linkAddBridge (ifname : String) (groupFwdMask : Nat)
  | linkSetBridge (ifname : String) (groupFwdMask : Nat)
  | linkSetDown (ifname : String)
  | master (bridge : Option String)
  | linkSetUp (ifname : String)
  | exitDown (ifname : String)
  | exitFlush (ifname : String)
  | linkDel (ifname : String)
  deriving DecidableEq, Repr

def Piece.text : Piece → String
  | initctlReload => "initctl -bnq reload\n"
  | addressDelete ip len ifname => "address delete " ++ str ip ++ "/" ++ str len ++ " dev " ++ ifname ++ "\n"
  | addressAdd command ip len ifname =>
    "address " ++ command ++ " " ++ str ip ++ "/" ++ str len ++ " dev " ++ ifname ++ "\n"
  | addrgenmode mode => " addrgenmode " ++ mode
  | zeroconfEnable ifname => "initctl -bnq enable zeroconf@" ++ ifname ++ ".conf\n"
  | zeroconfDisable ifname => "initctl -bnq disable zeroconf@" ++ ifname ++ ".conf\n"
  | forwarding family ifname enabled =>
    "net." ++ family ++ ".conf." ++ ifname ++ ".forwarding = " ++ (if enabled then "1" else "0") ++ "\n"
  | linkAddVeth ifname peer => "link add dev " ++ ifname ++ " down type veth peer " ++ str peer ++ "\n"
  | linkAddVlan ifname parent => "link add dev " ++ ifname ++ " down link " ++ str parent ++ " type vlan"
  | vlanProto proto => " proto " ++ proto
  | vlanId id => " id " ++ str id
  | newline => "\n"
  | linkAddBridge ifname mask =>
    "link add dev " ++ ifname ++ " type bridge group_fwd_mask " ++ toString mask ++ "\n"
  | linkSetBridge ifname mask =>
    "link set dev " ++ ifname ++ " type bridge group_fwd_mask " ++ toString mask ++ "\n"
  | linkSetDown ifname => "link set dev " ++ ifname ++ " down"
  | master bridge => " master " ++ str bridge
  | linkSetUp ifname => "link set dev " ++ ifname ++ " up\n"
  | exitDown ifname => "link set dev " ++ ifname ++ " down\n"
  | exitFlush ifname => "addr flush dev " ++ ifname ++ "\n"
  | linkDel ifname => "link del dev " ++ ifname ++ "\n"

instance : ToString Piece := ⟨Piece.text⟩

/-- Why a generator function fails. `command` is the status of a command,
`fault` a null pointer passed to strcmp. -/
inductive GenError where
  | einval
  | eio
  | enosys
  | command
  | fault
  deriving DecidableEq, Repr

structure GenState where
  tree : Base Piece
  kernel : Kernel

abbrev Gen := Program GenError GenState

def onTree (f : Base Piece → Base Piece) : Gen Unit :=
  .update fun s => { s with tree := f s.tree }

def print (file : Path) (piece : Piece) : Gen Unit := onTree fun t => t.append file [.out piece]

/-- `dagger_fopen_next(net, "init", ..)`, with `-EIO` for a null pointer. -/
def openInit (d : Handle) (node : String) (prio : Nat) (script : String) : Gen Path := fun s =>
  match daggerFopenNext d s.tree "init" node prio script with
  | (tree, .ok file) => (.ok file, { s with tree := tree })
  | (tree, .error _) => (.error .eio, { s with tree := tree })

/-- `dagger_fopen_current(net, "exit", ..)`. -/
def openExit (d : Handle) (node : String) (prio : Nat) (script : String) :
    Gen (Except Dagger.Errno Path) := fun s =>
  match daggerFopenCurrent d s.tree "exit" node prio script with
  | (tree, result) => (.ok result, { s with tree := tree })

def addNode (d : Handle) (node : String) : Gen Unit := fun s =>
  match daggerAddNode d s.tree node with
  | (tree, true) => (.ok (), { s with tree := tree })
  | (tree, false) => (.error .command, { s with tree := tree })

def addDep (d : Handle) (depender dependee : String) : Gen Unit := fun s =>
  match daggerAddDep d s.tree depender dependee with
  | (tree, true) => (.ok (), { s with tree := tree })
  | (tree, false) => (.error .command, { s with tree := tree })

/-- The key of an interface, which its list entry always has. -/
def ifaceName (iface : Ptr) : String := str (lydxGetCattr iface "name")

/-- A leaf whose absence strcmp does not survive. -/
def required (iface : Ptr) (leaf : String) : Gen String :=
  match lydxGetCattr iface leaf with
  | some value => pure value
  | none => .fail .fault

def netdagExitReload (d : Handle) : Gen Unit := do
  match ← openExit d "@post" 90 "reload.sh" with
  | .error _ => .fail .eio
  | .ok initctl => print initctl .initctlReload

/-- The addresses are in libyang's canonical form. -/
def isStdLoAddr (ifname : String) (ip pf : Option String) : Bool :=
  ifname = "lo" &&
    ((ip = some "127.0.0.1" && pf = some "8") || (ip = some "::1" && pf = some "128"))

def netdagGenDiffAddr (ip : Path) (ifname : String) (addr : Ptr) : Gen Unit :=
  let op := lydxGetOp addr
  let adr := lydxGetChild addr "ip"
  let pfx := lydxGetChild addr "prefix-length"
  let adrd := lydxGetDiff adr
  let pfxd := lydxGetDiff pfx
  let addcmd := if op = .create && isStdLoAddr ifname adrd.new pfxd.new then "replace" else "add"
  if adr.isNull || pfx.isNull then .fail .einval
  else do
    Program.onlyIf (op ≠ .create) (print ip (.addressDelete adrd.old pfxd.old ifname))
    Program.onlyIf (op ≠ .delete) (print ip (.addressAdd addcmd adrd.new pfxd.new ifname))

def netdagGenDiffAddrs (ip : Path) (ifname : String) (ipvx : Ptr) : Gen Unit :=
  .forEach (lyxListForEach (lydChild ipvx) "address") fun addr => netdagGenDiffAddr ip ifname addr

def netdagSetConfAddrs (ip : Path) (ifname : String) (ipvx : Ptr) : Gen Unit :=
  .forEach (lyxListForEach (lydChild ipvx) "address") fun addr =>
    print ip (.addressAdd "add" (lydxGetCattr addr "ip") (lydxGetCattr addr "prefix-length") ifname)

def Family.proto : Family → String
  | .ipv4 => "ipv4"
  | .ipv6 => "ipv6"

/-- Whether the configuration has the family's container, enabled. -/
def familyEnabled (family : Family) (cif : Ptr) : Bool :=
  let ipconf := lydxGetChild cif family.proto
  !ipconf.isNull && lydxIsEnabled ipconf "enabled"

/-- `systemf("ip -%c addr flush dev %s\n", ..)`, for a link with an index. -/
def flushLive (family : Family) (ifname : String) : Gen Unit :=
  .update fun s =>
    if s.kernel.hasLink ifname then { s with kernel := s.kernel.addrFlush family ifname } else s

/-- A disabled family is flushed on the spot. -/
def netdagGenIpAddrs (ip : Path) (family : Family) (cif dif : Ptr) : Gen Unit :=
  let ipdiff := lydxGetChild dif family.proto
  if !familyEnabled family cif then flushLive family (ifaceName dif)
  else if lydxGetOp (lydxGetChild ipdiff "enabled") = .replace then
    netdagSetConfAddrs ip (ifaceName dif) (lydxGetChild cif family.proto)
  else netdagGenDiffAddrs ip (ifaceName dif) ipdiff

/-- What an autoconf function decides: nothing to print, or on or off. The leaf
is looked for from the `autoconf` node on, not below it. -/
def autoconfVerdict (family : Family) (leaf : String) (unset : Bool) (cif dif : Ptr) : Option Bool :=
  let ipconf := lydxGetChild cif family.proto
  let ipdiff := lydxGetChild dif family.proto
  if !familyEnabled family cif then some false
  else if lydxGetOp (lydxGetChild ipdiff "enabled") = .replace then
    let node := lydxGetChild ipconf "autoconf"
    some (!node.isNull && lydxIsEnabled node leaf)
  else
    let node := lydxGetDescendant (lydxGetChild ipdiff "autoconf") [leaf]
    let nd := lydxGetDiff node
    if node.isNull || !nd.modified then none
    else match nd.new with
      | none => some unset
      | some _ => some (nd.val = some "true")

def netdagGenIpv6Autoconf (ip : Path) (cif dif : Ptr) : Gen Unit :=
  match autoconfVerdict .ipv6 "create-global-addresses" true cif dif with
  | none => pure ()
  | some true => print ip (.addrgenmode "eui64")
  | some false => print ip (.addrgenmode "none")

def netdagGenIpv4Autoconf (d : Handle) (cif dif : Ptr) : Gen Unit :=
  let ifname := ifaceName dif
  match autoconfVerdict .ipv4 "enabled" false cif dif with
  | none => pure ()
  | some true => do
    let initctl ← openInit d ifname 60 "zeroconf-up.sh"
    print initctl (.zeroconfEnable ifname)
  | some false => do
    match ← openExit d ifname 40 "zeroconf-down.sh" with
    -- In bootstrap there is no current generation.
    | .error .EUNATCH => pure ()
    | .error _ => .fail .eio
    | .ok initctl => do
      print initctl (.zeroconfDisable ifname)
      netdagExitReload d

/-- The stream is opened for the first line only. -/
def netdagGenSysctlBool (d : Handle) (ifname : String) (fp : Option Path) (node : Ptr)
    (family : String) : Gen (Option Path) :=
  let nd := lydxGetDiff node
  if node.isNull || !nd.modified then pure fp
  else do
    let file ← (fp.map pure).getD (openInit d ifname 60 "init.sysctl")
    print file (.forwarding family ifname (nd.new.isSome && nd.val = some "true"))
    pure (some file)

def netdagGenSysctl (d : Handle) (dif : Ptr) : Gen Unit := do
  let ifname := ifaceName dif
  let fp ← netdagGenSysctlBool d ifname none (lydxGetDescendant (lydChild dif) ["ipv4", "forwarding"]) "ipv4"
  let _ ← netdagGenSysctlBool d ifname fp (lydxGetDescendant (lydChild dif) ["ipv6", "forwarding"]) "ipv6"

def netdagGenVeth (d : Handle) (cif : Ptr) (ip : Path) : Gen Unit :=
  let ifname := ifaceName cif
  let node := lydxGetDescendant (lydChild cif) ["veth"]
  let peer := lydxGetCattr node "peer"
  if node.isNull then .fail .einval
  else do
    let s ← .read
    if daggerShouldSkip d s.tree ifname then addDep d ifname (str peer)
    else do
      onTree fun t => daggerSkipIface d t (str peer)
      print ip (.linkAddVeth ifname peer)

def vlanProtocol : Option String → Gen String
  | some "ieee802-dot1q-types:c-vlan" => pure "802.1Q"
  | some "ieee802-dot1q-types:s-vlan" => pure "802.1ad"
  | some _ => .fail .enosys
  | none => .fail .fault

/-- The line that adds a VLAN. -/
def printVlan (ifname : String) (parent : Option String) (otag : Ptr) (ip : Path) : Gen Unit := do
  let typed := lydxGetDiff (lydxGetChild otag "tag-type")
  let vidd := lydxGetDiff (lydxGetChild otag "vlan-id")
  print ip (.linkAddVlan ifname parent)
  Program.onlyIf typed.modified do
    let proto ← vlanProtocol typed.new
    print ip (.vlanProto proto)
  Program.onlyIf vidd.modified (print ip (.vlanId vidd.new))
  print ip .newline

/-- The outer tag is taken from the diff, or from the configuration when that is
null. -/
def netdagGenVlan (d : Handle) (dif cif : Ptr) (ip : Path) : Gen Unit := do
  let parent := lydxGetCattr cif "parent-interface"
  let ifname := ifaceName cif
  let otag := lydxGetDescendant (lydChild (if dif.isNull then cif else dif))
    ["encapsulation", "dot1q-vlan", "outer-tag"]
  addDep d ifname (str parent)
  Program.onlyIf (!otag.isNull) (printVlan ifname parent otag ip)

/-- A group is a number or one of the enumeration's names. -/
def groupNumber : String → Nat
  | "stp" => 0
  | "lacp" => 2
  | "dot1x" => 3
  | "lldp" => 14
  | digits => digits.toList.foldl (fun n c => 10 * n + (c.toNat - 48)) 0

def netdagGetBridgeFwdMask (cif : Ptr) : Nat :=
  let node := lydxGetDescendant (lydChild cif) ["bridge"]
  (lyxListForEach (lydChild node) "ieee-group-forward").foldl
    (fun mask proto => mask ||| 1 <<< groupNumber (str proto.value)) 0

def netdagSetBridge (cif : Ptr) (ip : Path) : Gen Unit :=
  print ip (.linkSetBridge (ifaceName cif) (netdagGetBridgeFwdMask cif))

def typeBridge : String := "iana-if-type:bridge"
def typeVeth : String := "infix-if-type:veth"
def typeVlan : String := "iana-if-type:l2vlan"

def netdagGenAfspecAdd (d : Handle) (cif : Ptr) (ip : Path) : Gen Unit := do
  let iftype ← required cif "type"
  if iftype = typeBridge then
    print ip (.linkAddBridge (ifaceName cif) (netdagGetBridgeFwdMask cif))
  else if iftype = typeVeth then netdagGenVeth d cif ip
  else if iftype = typeVlan then netdagGenVlan d .null cif ip
  else .fail .enosys

def netdagGenAfspecSet (d : Handle) (dif cif : Ptr) (ip : Path) : Gen Unit := do
  let iftype ← required cif "type"
  if iftype = typeBridge then netdagSetBridge cif ip
  else if iftype = typeVlan then netdagGenVlan d dif cif ip
  else if iftype = typeVeth then pure ()
  else .fail .enosys

def netdagBridgeLinks (d : Handle) (cif : Ptr) (ip : Path) : Gen Unit :=
  let node := lydxGetDescendant (lydChild cif) ["bridge-port"]
  let brname := lydxGetCattr node "bridge"
  Program.onlyIf (!node.isNull) do
    print ip (.master brname)
    addDep d (ifaceName cif) (str brname)

/-- For a veth the source looks for `peer` beside `veth`, not below it. -/
def netdagMustDel (dif : Ptr) (iftype : String) : Bool :=
  if iftype = typeBridge then false
  else if iftype = typeVlan then
    (lydxGetCattr dif "parent-interface").isSome ||
      !(lydxGetDescendant (lydChild dif) ["encapsulation", "dot1q-vlan", "outer-tag"]).isNull
  else if iftype = typeVeth then !(lydxGetDescendant (lydChild dif) ["peer"]).isNull
  else false

def netdagGenIfaceDel (d : Handle) (dif : Ptr) (fixed : Bool) : Gen Unit := do
  let ifname := ifaceName dif
  match ← openExit d ifname 50 "exit.ip" with
  | .error _ => .fail .eio
  | .ok ip =>
    if fixed then do
      print ip (.exitDown ifname)
      print ip (.exitFlush ifname)
    else print ip (.linkDel ifname)

/-- `lyd_new_meta(.., cif, .., "yang:operation", "create", ..)`. -/
def markCreated (cif : Ptr) : Ptr :=
  match cif.nodes with
  | [] => cif
  | n :: rest => ⟨n.mark .create :: rest, cif.inherited⟩

/-- Link and type attributes of an interface, up to its addresses. -/
def genLink (d : Handle) (fixed : Bool) (op : Operation) (dif cif : Ptr) : Gen Path := do
  let ifname := ifaceName dif
  let ip ← openInit d ifname 50 "init.ip"
  Program.onlyIf (!fixed && op = .create) (netdagGenAfspecAdd d cif ip)
  print ip (.linkSetDown ifname)
  netdagGenIpv4Autoconf d cif dif
  netdagGenIpv6Autoconf ip cif dif
  netdagBridgeLinks d cif ip
  print ip .newline
  Program.onlyIf (!fixed && op ≠ .create) (netdagGenAfspecSet d dif cif ip)
  pure ip

/-- Whether Linux cannot make the change in place. -/
def mustDel (op : Operation) (dif cif : Ptr) : Gen Bool :=
  if op = .create then pure false
  else do
    let iftype ← required cif "type"
    pure (netdagMustDel dif iftype)

/-- The interface whose addresses come next, as its diff, its configuration and
the open script. -/
structure Pending where
  dif : Ptr
  cif : Ptr
  ip : Path

/-- `netdag_gen_iface` up to the addresses, which a deleted interface has none
of. After a deletion the configuration becomes the diff, so that everything is
applied again. -/
def genUntilAddresses (d : Handle) (dif cif : Ptr) : Gen (Option Pending) := do
  let kernel := (← .read).kernel
  let op := lydxGetOp dif
  let fixed := kernel.ifaceIsPhys (ifaceName dif) || ifaceName dif = "lo"
  if op = .delete then do
    netdagGenIfaceDel d dif fixed
    pure none
  else if ← mustDel op dif cif then do
    netdagGenIfaceDel d dif fixed
    let ip ← genLink d fixed .create (markCreated cif) (markCreated cif)
    pure (some ⟨markCreated cif, markCreated cif, ip⟩)
  else do
    let ip ← genLink d fixed op dif cif
    pure (some ⟨dif, cif, ip⟩)

/-- Link state and forwarding. -/
def genAdmin (d : Handle) (dif cif : Ptr) (ip : Path) : Gen Unit := do
  Program.onlyIf (lydxGetCattr cif "enabled" = none || lydxGetCattr cif "enabled" = some "true")
    (print ip (.linkSetUp (ifaceName dif)))
  netdagGenSysctl d dif

def netdagGenIface (d : Handle) (dif cif : Ptr) : Gen Unit := do
  match ← genUntilAddresses d dif cif with
  | none => pure ()
  | some pending => do
    netdagGenIpAddrs pending.ip .ipv4 pending.cif pending.dif
    netdagGenIpAddrs pending.ip .ipv6 pending.cif pending.dif
    genAdmin d pending.dif pending.cif pending.ip

def netdagInit (d : Handle) (cifs difs : Ptr) : Gen Unit := do
  Program.forEach (lyxListForEach cifs "interface") fun iface => addNode d (ifaceName iface)
  Program.forEach (lyxListForEach difs "interface") fun iface => addNode d (ifaceName iface)

/-- The entry of the configuration for an entry of the diff, or null. -/
def findCif (cifs dif : Ptr) : Ptr :=
  ((lyxListForEach cifs "interface").find? fun cif => ifaceName cif = ifaceName dif).getD .null

def interfacesOf (tree : List Node) : Ptr := lydxGetDescendant (.root tree) ["interfaces", "interface"]

/-- What `ifchange` does between the claim and the end of the CHANGE. -/
def generate (d : Handle) (cfg diff : List Node) : Gen Unit := do
  netdagInit d (interfacesOf cfg) (interfacesOf diff)
  Program.forEach (lyxListForEach (interfacesOf diff) "interface") fun dif =>
    netdagGenIface d dif (findCif (interfacesOf cfg) dif)

structure Net where
  world : World Piece
  kernel : Kernel

/-- What one CHANGE event brings: the faults of the claim, the results of
sr_get_data and srx_get_diff, and the time of a possible abandon. -/
structure Change where
  faults : Faults
  dataRc : SrError
  cfg : List Node
  diffRc : SrError
  diff : List Node
  stamp : Name

def abandon (base : String) (stamp : Name) (net : Net) : Net :=
  { net with world := net.world.step base (.abandon stamp) }

/-- The state with which the generator is run, and what becomes of it. -/
def Net.generated (net : Net) (change : Change) : Except GenError Unit × GenState :=
  generate net.world.handle change.cfg change.diff ⟨net.world.tree, net.kernel⟩

def Net.put (net : Net) (state : GenState) : Net :=
  ⟨{ net.world with tree := state.tree }, state.kernel⟩

/-- After a successful claim. -/
def ifchangeClaimed (base : String) (change : Change) (net : Net) : SrError × Net :=
  if change.dataRc ≠ .ok then (change.dataRc, abandon base change.stamp net)
  else if change.diffRc ≠ .ok then (change.diffRc, abandon base change.stamp net)
  else match net.generated change with
    | (.ok (), state) => (.ok, net.put state)
    | (.error _, state) => (.internal, abandon base change.stamp (net.put state))

/-- `ifchange` on SR_EV_CHANGE. -/
def ifchange (base : String) (change : Change) (net : Net) : SrError × Net :=
  let claimed := { net with world := net.world.step base (.claim change.faults) }
  if claimed.world.live then ifchangeClaimed base change claimed else (.sys, claimed)

/-- `ifchange` on SR_EV_DONE: the tree, and whether the evolve succeeded. -/
def ifchangeDone (base : String) (env : Env) (stamp : Name) (net : Net) : SrError × Net :=
  let evolved := daggerEvolveOrAbandon { env with basedir := base } stamp.text net.world.handle net.world.tree
  (if evolved.ok then .ok else .sys, { net with world := net.world.step base (.done env stamp) })

/-- `ifchange` on SR_EV_ABORT. -/
def ifchangeAbort (base : String) (stamp : Name) (net : Net) : SrError × Net :=
  (.ok, abandon base stamp net)

end Netdag
