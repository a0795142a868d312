import InfixOS.Dagger.Lifecycle
import InfixOS.Netdag.Rules

/-! What the generator asks of the base directory when it does not fail, as a
list of requests. Every generator function has its list; the lists of a sequence
follow one another. -/
namespace Netdag
open Dagger Exec Exec.Program Lyx Posix Yang

/-- One request to the base directory. `test` asks whether an interface is to be
skipped, with the answer. -/
inductive Act where
  | node (v : String)
  | dep (depender dependee : String)
  | skip (ifname : String)
  | test (ifname : String) (answer : Bool)
  | fopen (side : Side) (node : String) (script : Nat × String)
  | print (side : Side) (node : String) (script : Nat × String) (piece : Piece)
  deriving DecidableEq

def isOk : Except ε α → Bool
  | .ok _ => true
  | .error _ => false

def Act.run (d : Handle) (t : Base Piece) : Act → Base Piece × Bool
  | .node v => daggerAddNode d t v
  | .dep depender dependee => daggerAddDep d t depender dependee
  | .skip ifname => (daggerSkipIface d t ifname, true)
  | .test ifname answer => (t, daggerShouldSkip d t ifname == answer)
  | .fopen .init v script =>
    let opened := daggerFopenNext d t "init" v script.1 script.2
    (opened.1, isOk opened.2)
  | .fopen .exit v script =>
    let opened := daggerFopenCurrent d t "exit" v script.1 script.2
    (opened.1, isOk opened.2)
  | .print .init v script piece => (t.append (initFile d v script) [.out piece], true)
  | .print .exit v script piece => (t.append (exitFile d v script) [.out piece], decide (0 ≤ d.current))

/-- All of the requests are met, one after the other. -/
inductive Performs (d : Handle) : Base Piece → List Act → Base Piece → Prop
  | nil : Performs d t [] t
  | cons (first : act.run d t = (u, true)) (rest : Performs d u acts v) : Performs d t (act :: acts) v

theorem Performs.single (met : act.run d t = (u, true)) : Performs d t [act] u := .cons met .nil

theorem Performs.append (first : Performs d t acts u) (second : Performs d u more v) :
    Performs d t (acts ++ more) v := by
  induction first with
  | nil => exact second
  | cons met _ ih => exact .cons met (ih second)

theorem performs_append : Performs d t (acts ++ more) v ↔
    ∃ u, Performs d t acts u ∧ Performs d u more v := by
  constructor
  · intro both
    induction acts generalizing t with
    | nil => exact ⟨t, .nil, both⟩
    | cons act rest ih =>
      cases both with
      | cons met later =>
        obtain ⟨u, first, second⟩ := ih later
        exact ⟨u, .cons met first, second⟩
  · rintro ⟨u, first, second⟩
    exact first.append second

/-- A run that does not fail has made these requests. -/
def Emits (d : Handle) (m : Gen α) (acts : List Act) : Prop :=
  ∀ s a t, m s = (.ok a, t) → Performs d s.tree acts t.tree

namespace Emits
variable {d : Handle} {acts more : List Act}

theorem pure (a : α) : Emits d (Pure.pure a : Gen α) [] := by
  intro s b t returned
  rw [(pure_ok.mp returned).2]
  exact .nil

theorem fail (e : GenError) : Emits d (Program.fail e : Gen α) acts :=
  fun _ _ _ returned => absurd returned fail_ok

theorem bindOf {m : Gen α} {f : α → Gen β} (first : Emits d m acts)
    (second : ∀ s a t, m s = (.ok a, t) → Emits d (f a) more) : Emits d (m >>= f) (acts ++ more) := by
  intro s b u returned
  obtain ⟨a, t, before, after⟩ := bind_ok.mp returned
  exact (first s a t before).append (second s a t before t b u after)

theorem bind {m : Gen α} {f : α → Gen β} (first : Emits d m acts)
    (second : ∀ a, Emits d (f a) more) : Emits d (m >>= f) (acts ++ more) :=
  first.bindOf fun _ a _ _ => second a

theorem afterPure {f : α → Gen β} (second : Emits d (f a) more) : Emits d (Pure.pure a >>= f) more :=
  ((Emits.pure a).bindOf fun _ _ _ same => (pure_ok.mp same).1 ▸ second : Emits d _ ([] ++ more))

theorem congr {m : Gen α} (emits : Emits d m acts) (same : acts = more) : Emits d m more := same ▸ emits

theorem ite {p : Prop} [Decidable p] {m n : Gen α} (yes : p → Emits d m acts)
    (no : ¬p → Emits d n more) : Emits d (if p then m else n) (if p then acts else more) := by
  split
  · exact yes ‹_›
  · exact no ‹_›

/-- After a check that fails the run. -/
theorem checked {p : Prop} [Decidable p] {m : Gen α} (runs : ¬p → Emits d m acts) :
    Emits d (if p then Program.fail e else m) acts := by
  split
  · exact .fail e
  · exact runs ‹_›

theorem onlyIf {m : Gen Unit} (runs : condition = true → Emits d m acts) :
    Emits d (Program.onlyIf condition m) (if condition then acts else []) :=
  .ite runs fun _ => .pure ()

theorem forEach {body : α → Gen Unit} {acts : α → List Act} (xs : List α)
    (each : ∀ x ∈ xs, Emits d (body x) (acts x)) : Emits d (Program.forEach xs body) (xs.flatMap acts) := by
  induction xs with
  | nil => exact .pure ()
  | cons x rest ih =>
    refine (each x List.mem_cons_self).bind fun _ => ?_
    exact ih fun y member => each y (List.mem_cons_of_mem _ member)

end Emits

/-- Lines of the link script of an interface. -/
def ipLines (ifname : String) (pieces : List Piece) : List Act := pieces.map (.print .init ifname (50, "init.ip"))

def diffAddrPieces (ifname : String) (addr : Ptr) : List Piece :=
  let op := lydxGetOp addr
  let adrd := lydxGetDiff (lydxGetChild addr "ip")
  let pfxd := lydxGetDiff (lydxGetChild addr "prefix-length")
  let addcmd := if op = .create && isStdLoAddr ifname adrd.new pfxd.new then "replace" else "add"
  (if op ≠ .create then [.addressDelete adrd.old pfxd.old ifname] else []) ++
    if op ≠ .delete then [.addressAdd addcmd adrd.new pfxd.new ifname] else []

/-- The addresses of one family, from the configuration when the family was
switched on or off and from the diff otherwise. -/
def addressPieces (family : Family) (cif dif : Ptr) : List Piece :=
  let ipdiff := lydxGetChild dif family.proto
  if !familyEnabled family cif then []
  else if lydxGetOp (lydxGetChild ipdiff "enabled") = .replace then
    (lyxListForEach (lydChild (lydxGetChild cif family.proto)) "address").map fun addr =>
      .addressAdd "add" (lydxGetCattr addr "ip") (lydxGetCattr addr "prefix-length") (ifaceName dif)
  else (lyxListForEach (lydChild ipdiff) "address").flatMap (diffAddrPieces (ifaceName dif))

def ipv6AutoconfPieces (cif dif : Ptr) : List Piece :=
  match autoconfVerdict .ipv6 "create-global-addresses" true cif dif with
  | none => []
  | some true => [.addrgenmode "eui64"]
  | some false => [.addrgenmode "none"]

def reloadActs : List Act :=
  [.fopen .exit "@post" (90, "reload.sh"), .print .exit "@post" (90, "reload.sh") .initctlReload]

def ipv4AutoconfActs (d : Handle) (cif dif : Ptr) : List Act :=
  let ifname := ifaceName dif
  match autoconfVerdict .ipv4 "enabled" false cif dif with
  | none => []
  | some true => [.fopen .init ifname (60, "zeroconf-up.sh"),
      .print .init ifname (60, "zeroconf-up.sh") (.zeroconfEnable ifname)]
  | some false =>
    if d.current < 0 then []
    else [.fopen .exit ifname (40, "zeroconf-down.sh"),
      .print .exit ifname (40, "zeroconf-down.sh") (.zeroconfDisable ifname)] ++ reloadActs

def forwardingActs (ifname : String) (node : Ptr) (family : String) : List Act :=
  let nd := lydxGetDiff node
  if node.isNull || !nd.modified then []
  else [.print .init ifname (60, "init.sysctl") (.forwarding family ifname (nd.new.isSome && nd.val = some "true"))]

def sysctlActs (dif : Ptr) : List Act :=
  let lines := forwardingActs (ifaceName dif) (lydxGetDescendant (lydChild dif) ["ipv4", "forwarding"]) "ipv4" ++
    forwardingActs (ifaceName dif) (lydxGetDescendant (lydChild dif) ["ipv6", "forwarding"]) "ipv6"
  if lines = [] then [] else .fopen .init (ifaceName dif) (60, "init.sysctl") :: lines

def vethPeer (cif : Ptr) : Option String :=
  lydxGetCattr (lydxGetDescendant (lydChild cif) ["veth"]) "peer"

def vethActs (skip : Bool) (cif : Ptr) : List Act :=
  .test (ifaceName cif) skip ::
    if skip then [.dep (ifaceName cif) (str (vethPeer cif))]
    else .skip (str (vethPeer cif)) :: ipLines (ifaceName cif) [.linkAddVeth (ifaceName cif) (vethPeer cif)]

def protoText : Option String → String
  | some "ieee802-dot1q-types:s-vlan" => "802.1ad"
  | _ => "802.1Q"

def vlanPieces (ifname : String) (parent : Option String) (otag : Ptr) : List Piece :=
  let typed := lydxGetDiff (lydxGetChild otag "tag-type")
  let vidd := lydxGetDiff (lydxGetChild otag "vlan-id")
  .linkAddVlan ifname parent :: (if typed.modified then [.vlanProto (protoText typed.new)] else []) ++
    (if vidd.modified then [.vlanId vidd.new] else []) ++ [.newline]

def outerTag (from' : Ptr) : Ptr :=
  lydxGetDescendant (lydChild from') ["encapsulation", "dot1q-vlan", "outer-tag"]

def vlanActs (dif cif : Ptr) : List Act :=
  let parent := lydxGetCattr cif "parent-interface"
  let otag := outerTag (if dif.isNull then cif else dif)
  .dep (ifaceName cif) (str parent) ::
    if !otag.isNull then ipLines (ifaceName cif) (vlanPieces (ifaceName cif) parent otag) else []

def hasType (cif : Ptr) (iftype : String) : Bool := lydxGetCattr cif "type" = some iftype

def afspecAddActs (skip : Bool) (cif : Ptr) : List Act :=
  if hasType cif typeBridge then
    ipLines (ifaceName cif) [.linkAddBridge (ifaceName cif) (netdagGetBridgeFwdMask cif)]
  else if hasType cif typeVeth then vethActs skip cif
  else if hasType cif typeVlan then vlanActs .null cif
  else []

def afspecSetActs (dif cif : Ptr) : List Act :=
  if hasType cif typeBridge then
    ipLines (ifaceName cif) [.linkSetBridge (ifaceName cif) (netdagGetBridgeFwdMask cif)]
  else if hasType cif typeVlan then vlanActs dif cif
  else []

def bridgePort (cif : Ptr) : Ptr := lydxGetDescendant (lydChild cif) ["bridge-port"]

def bridgeActs (cif : Ptr) : List Act :=
  let brname := lydxGetCattr (bridgePort cif) "bridge"
  if !(bridgePort cif).isNull then
    ipLines (ifaceName cif) [.master brname] ++ [.dep (ifaceName cif) (str brname)]
  else []

def linkActs (d : Handle) (fixed skip : Bool) (op : Operation) (dif cif : Ptr) : List Act :=
  .fopen .init (ifaceName dif) (50, "init.ip") ::
    (if !fixed && op = .create then afspecAddActs skip cif else []) ++
    ipLines (ifaceName dif) [.linkSetDown (ifaceName dif)] ++ ipv4AutoconfActs d cif dif ++
    ipLines (ifaceName dif) (ipv6AutoconfPieces cif dif) ++ bridgeActs cif ++
    ipLines (ifaceName dif) [.newline] ++
    if !fixed && op ≠ .create then afspecSetActs dif cif else []

def adminActs (dif cif : Ptr) : List Act :=
  (if lydxGetCattr cif "enabled" = none || lydxGetCattr cif "enabled" = some "true" then
    ipLines (ifaceName dif) [.linkSetUp (ifaceName dif)] else []) ++ sysctlActs dif

/-- Everything for an interface that is there afterwards. -/
def setupActs (d : Handle) (fixed skip : Bool) (op : Operation) (dif cif : Ptr) : List Act :=
  linkActs d fixed skip op dif cif ++
    ipLines (ifaceName dif) (addressPieces .ipv4 cif dif ++ addressPieces .ipv6 cif dif) ++ adminActs dif cif

def delActs (ifname : String) (fixed : Bool) : List Act :=
  .fopen .exit ifname (50, "exit.ip") ::
    (if fixed then [.exitDown ifname, .exitFlush ifname] else [.linkDel ifname]).map
      (.print .exit ifname (50, "exit.ip"))

/-- Whether a changed interface is deleted and created again. -/
def recreated (dif cif : Ptr) : Bool :=
  lydxGetOp dif ≠ .create && netdagMustDel dif (str (lydxGetCattr cif "type"))

def ifaceActs (d : Handle) (fixed skip : Bool) (dif cif : Ptr) : List Act :=
  if lydxGetOp dif = .delete then delActs (ifaceName dif) fixed
  else if recreated dif cif then
    delActs (ifaceName dif) fixed ++ setupActs d fixed skip .create (markCreated cif) (markCreated cif)
  else setupActs d fixed skip (lydxGetOp dif) dif cif

def isFixed (k : Kernel) (ifname : String) : Bool := k.ifaceIsPhys ifname || ifname = "lo"

def nodeActs (cifs difs : Ptr) : List Act :=
  (lyxListForEach cifs "interface" ++ lyxListForEach difs "interface").map fun iface => .node (ifaceName iface)

/-- The interfaces of a diff with the answer each was given when it asked
whether to be skipped. -/
abbrev Plan := List (Ptr × Bool)

def planActs (d : Handle) (k : Kernel) (cifs : Ptr) (plan : Plan) : List Act :=
  plan.flatMap fun step =>
    ifaceActs d (isFixed k (ifaceName step.1)) step.2 step.1 (findCif cifs step.1)

end Netdag
