import InfixOS.Netdag.Commits
import InfixOS.Netdag.Contents
import Mathlib.Logic.Relation

/-! How interfaces depend on one another, and which of these dependencies become
edges of a generation. -/
namespace Netdag
open Core Dagger Exec Lyx Posix Posix.FileTree Yang

/-- The dag of the current generation has an edge for every VLAN and every bridge
port of a configuration. -/
structure Stacked (net : Net) (cif : Ptr) : Prop where
  vlan : lydxGetCattr cif "type" = some typeVlan → lydxGetCattr cif "parent-interface" = some parent →
    net.currentDag [ifaceName cif, parent] = some (.link ["..", parent])
  port : lydxGetCattr (bridgePort cif) "bridge" = some bridge →
    net.currentDag [ifaceName cif, bridge] = some (.link ["..", bridge])

/-- The transaction sets the interface up, from scratch or as a change. -/
def Handles (change : Change) (cif : Ptr) : Prop :=
  ∃ dif ∈ ifaces change.diff, ifaceName dif = ifaceName cif ∧ lydxGetOp dif ≠ .delete

instance (change : Change) (cif : Ptr) : Decidable (Handles change cif) :=
  inferInstanceAs (Decidable (∃ dif ∈ ifaces change.diff, _ ∧ _))

/-- Every stacked interface of the new configuration is handled, no VLAN has the
name of a physical link, and keys are unique. -/
structure Restacks (s : Running) (change : Change) : Prop where
  names : NamesIn Plain change.cfg change.diff
  unique : ((ifaces change.cfg).map ifaceName).Nodup
  vlans : ∀ cif ∈ ifaces change.cfg, lydxGetCattr cif "type" = some typeVlan →
    Handles change cif ∧ isFixed s.net.kernel (ifaceName cif) = false
  ports : ∀ cif ∈ ifaces change.cfg, (bridgePort cif).isNull = false → Handles change cif

theorem findCif_eq (unique : ((ifaces cfg).map ifaceName).Nodup) (member : cif ∈ ifaces cfg)
    (same : ifaceName dif = ifaceName cif) : findCif (interfacesOf cfg) dif = cif := by
  have found : ((ifaces cfg).find? fun c => ifaceName c = ifaceName dif).isSome := by
    rw [List.find?_isSome]
    exact ⟨cif, member, by simp [same]⟩
  obtain ⟨c, first⟩ := Option.isSome_iff_exists.mp found
  have equal := List.find?_some first
  simp only [decide_eq_true_eq] at equal
  rw [findCif, show lyxListForEach (interfacesOf cfg) "interface" = ifaces cfg from rfl, first, Option.getD_some]
  exact List.inj_on_of_nodup_map unique (List.mem_of_find?_eq_some first) member (equal.trans same)

/-- Whether the link of an interface is added, for the first time or again. -/
def created (dif cif : Ptr) : Bool :=
  lydxGetOp dif = .create || (lydxGetOp dif ≠ .delete && recreated dif cif)

/-- An interface that is not deleted is set up, with its configuration as it is or
marked as new. What comes first is about the script that deletes it. -/
theorem ifaceActs_setup (alive : lydxGetOp dif ≠ .delete) (d : Handle) (fixed skip : Bool) (cif : Ptr) :
    ∃ before op dif' cif', ifaceActs d fixed skip dif cif = before ++ setupActs d fixed skip op dif' cif' ∧
      (lydChild cif').nodes = (lydChild cif).nodes ∧ (op = .create ↔ created dif cif = true) ∧
      (before = [] ∨ before = delActs (ifaceName dif) fixed) := by
  unfold ifaceActs
  rw [if_neg alive]
  split
  · rename_i again
    exact ⟨_, .create, markCreated cif, markCreated cif, rfl, markCreated_child cif,
      by simp [created, alive, again], .inr rfl⟩
  · rename_i again
    exact ⟨[], lydxGetOp dif, dif, cif, rfl, rfl, by simp [created, again], .inl rfl⟩

theorem setup_vlan (type : lydxGetCattr cif "type" = some typeVlan) (d : Handle) (skip : Bool) (op : Operation)
    (dif : Ptr) : .dep (ifaceName cif) (str (lydxGetCattr cif "parent-interface")) ∈
      setupActs d false skip op dif cif := by
  have vlan (dif : Ptr) : .dep (ifaceName cif) (str (lydxGetCattr cif "parent-interface")) ∈ vlanActs dif cif := by
    simp [vlanActs]
  have added : afspecAddActs skip cif = vlanActs .null cif := by
    simp [afspecAddActs, hasType, type, typeVlan, typeBridge, typeVeth]
  have adjusted : afspecSetActs dif cif = vlanActs dif cif := by
    simp [afspecSetActs, hasType, type, typeVlan, typeBridge]
  rw [setupActs, linkActs, added, adjusted]
  by_cases create : op = .create
  · simp [create, vlan]
  · simp [create, vlan]

theorem setup_port (port : (bridgePort cif).isNull = false) (d : Handle) (fixed skip : Bool) (op : Operation)
    (dif : Ptr) : .dep (ifaceName cif) (str (lydxGetCattr (bridgePort cif) "bridge")) ∈
      setupActs d fixed skip op dif cif := by
  simp [setupActs, linkActs, bridgeActs, port]

theorem cattr_child (same : (lydChild p).nodes = (lydChild q).nodes) (name : String) :
    lydxGetCattr p name = lydxGetCattr q name := by
  rw [lydxGetCattr, lydxGetCattr, lydxGetAttr_eq, lydxGetAttr_eq, same]

theorem ifaceName_child (same : (lydChild p).nodes = (lydChild q).nodes) : ifaceName p = ifaceName q :=
  congrArg str (cattr_child same "name")

theorem bridgePort_child (same : (lydChild p).nodes = (lydChild q).nodes) :
    (bridgePort p).nodes = (bridgePort q).nodes := lydxGetDescendant_nodes _ same

/-- A VLAN that is set up asks for an edge to its parent. -/
theorem ifaceActs_vlan (alive : lydxGetOp dif ≠ .delete) (type : lydxGetCattr cif "type" = some typeVlan)
    (d : Handle) (skip : Bool) : .dep (ifaceName cif) (str (lydxGetCattr cif "parent-interface")) ∈
      ifaceActs d false skip dif cif := by
  obtain ⟨before, op, dif', cif', setup, child, _⟩ := ifaceActs_setup alive d false skip cif
  have dep := setup_vlan ((cattr_child child "type").trans type) d skip op dif'
  rw [ifaceName_child child, cattr_child child] at dep
  exact setup ▸ List.mem_append_right _ dep

/-- A port that is set up asks for an edge to its bridge. -/
theorem ifaceActs_port (alive : lydxGetOp dif ≠ .delete) (port : (bridgePort cif).isNull = false)
    (d : Handle) (fixed skip : Bool) : .dep (ifaceName cif) (str (lydxGetCattr (bridgePort cif) "bridge")) ∈
      ifaceActs d fixed skip dif cif := by
  obtain ⟨before, op, dif', cif', setup, child, _⟩ := ifaceActs_setup alive d fixed skip cif
  have below := bridgePort_child child
  have dep := setup_port ((isNull_nodes below).trans port) d fixed skip op dif'
  rw [ifaceName_child child, lydxGetCattr_nodes _ below] at dep
  exact setup ▸ List.mem_append_right _ dep

/-- What a run of the generator asked for an interface that it handled. -/
theorem Generated.asked (made : Generated d k kernel cfg diff plan t u v)
    (unique : ((ifaces cfg).map ifaceName).Nodup) (member : cif ∈ ifaces cfg) (changed : dif ∈ ifaces diff)
    (same : ifaceName dif = ifaceName cif) : ∃ skip,
      ifaceActs d (isFixed kernel (ifaceName cif)) skip dif cif ⊆ planActs d kernel (interfacesOf cfg) plan := by
  rw [← made.all] at changed
  obtain ⟨step, listed, rfl⟩ := List.mem_map.mp changed
  refine ⟨step.2, fun act asked => List.mem_flatMap.mpr ⟨step, listed, ?_⟩⟩
  rw [findCif_eq unique member same, same]
  exact asked

theorem Accepted.stacked (accepted : Accepted base s.net change plan u mid) (restacks : Restacks s change)
    (done : Succeeded base mid last) (member : cif ∈ ifaces change.cfg) : Stacked last cif := by
  have edge (a b : String)
      (asked : .dep a b ∈ planActs mid.world.handle s.net.kernel (interfacesOf change.cfg) plan) :
      last.currentDag [a, b] = some (.link ["..", b]) := by
    refine (done.kept ["dag", a, b] (by simp)).trans ?_
    rw [accepted.count]
    exact accepted.generated.made.edge accepted.generated.ready asked
  constructor
  case vlan =>
    intro parent type found
    obtain ⟨⟨dif, changed, same, alive⟩, dynamic⟩ := restacks.vlans cif member type
    obtain ⟨skip, asked⟩ := accepted.generated.asked restacks.unique member changed same
    rw [dynamic] at asked
    have dep := asked (ifaceActs_vlan alive type mid.world.handle skip)
    rw [found] at dep
    exact edge _ _ dep
  case port =>
    intro bridge found
    have port : (bridgePort cif).isNull = false := cattr_not_null found
    obtain ⟨dif, changed, same, alive⟩ := restacks.ports cif member port
    obtain ⟨skip, asked⟩ := accepted.generated.asked restacks.unique member changed same
    have dep := asked (ifaceActs_port alive port mid.world.handle _ skip)
    rw [found] at dep
    exact edge _ _ dep

/-- If every transaction handles all stacked interfaces of its configuration, the
dag of the current generation is complete. -/
theorem dag_complete (base : String) (nonempty : base ≠ "") (literal : Literal base) (s : Running)
    (commits : Commits base Restacks s) : ∀ cif ∈ ifaces s.cfg, Stacked s.net cif := by
  intro cif member
  cases commits with
  | boot kernel => simp [ifaces_boot] at member
  | commit before restacks step =>
    have steady := before.steady nonempty literal fun _ _ holds => holds.names
    obtain ⟨accepted, env, stamp, done, kernel⟩ := step
    obtain ⟨plan, u, filled⟩ := steady.accepted restacks.names accepted
    have stacked := filled.stacked restacks (filled.succeeded nonempty literal done) member
    exact ⟨stacked.vlan, stacked.port⟩

/-- A bridge with a port, and a VLAN on the bridge. -/
def stack : List Node :=
  [ifaceEntry "br0" typeBridge [],
    ifaceEntry "eth0" "iana-if-type:ethernetCsmacd"
      [.inner "bridge-port" [] .plain [.leaf "bridge" "br0" false .plain]],
    ifaceEntry "vlan1" typeVlan [.leaf "parent-interface" "br0" false .plain,
      .inner "encapsulation" [] .plain [.inner "dot1q-vlan" [] .plain [.inner "outer-tag" [] .plain
        [.leaf "tag-type" "ieee802-dot1q-types:c-vlan" false .plain, .leaf "vlan-id" "1" false .plain]]]]]

def twoPorts : Kernel := ⟨[⟨"eth0", .ether, [], []⟩, ⟨"eth1", .ether, [], []⟩]⟩

/-- The stack in place of the empty configuration. -/
def stackRunning : Running := (Running.boot twoPorts).to (interfaces stack) twoPorts

theorem dag_complete_stack : (ifaces stackRunning.cfg).map ifaceName = ["br0", "eth0", "vlan1"] ∧
    ∀ cif ∈ ifaces stackRunning.cfg, Stacked stackRunning.net cif := by
  refine ⟨by decide +kernel, dag_complete "/run/net" (by decide) (by decide) stackRunning ?_⟩
  refine (Commits.boot twoPorts).to _ _ (by decide +kernel) ⟨?_, ?_, ?_, ?_⟩
  · decide +kernel
  · decide +kernel
  · decide +kernel
  · decide +kernel

/-- A second transaction adds another interface and touches nothing else. -/
def stackAndPort : Running :=
  stackRunning.to (interfaces (stack ++ [ifaceEntry "eth1" "iana-if-type:ethernetCsmacd" []])) twoPorts

/-- The new generation has the nodes of the stack and none of its edges. -/
theorem untouched_stack_loses_edges :
    Commits "/run/net" (fun _ _ => True) stackAndPort ∧
    (ifaces stackAndPort.cfg).map ifaceName = ["br0", "eth0", "vlan1", "eth1"] ∧
    stackAndPort.net.currentDag ["eth0"] = some .dir ∧ stackAndPort.net.currentDag ["eth0", "br0"] = none ∧
    stackAndPort.net.currentDag ["vlan1"] = some .dir ∧ stackAndPort.net.currentDag ["vlan1", "br0"] = none := by
  have first : (Running.boot twoPorts).Goes (interfaces stack) := by decide +kernel
  have second : stackRunning.Goes stackAndPort.cfg := by decide +kernel
  refine ⟨((Commits.boot twoPorts).to _ twoPorts first trivial).to _ _ second trivial, ?_⟩
  decide +kernel

end Netdag
