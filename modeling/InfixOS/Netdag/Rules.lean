import InfixOS.Netdag.Generate

/-! What the generator can do for one interface. `Rules` lists its basic actions;
a relation between states that all of them respect is respected by every
generator function, so each invariant is proved for the basic actions only. -/
namespace Netdag
open Dagger Exec Exec.Program Lyx Posix Yang

/-- The scripts an interface may have, with their priorities. -/
def initScripts : List (Nat × String) := [(50, "init.ip"), (60, "zeroconf-up.sh"), (60, "init.sysctl")]

def exitScripts : List (Nat × String) := [(40, "zeroconf-down.sh"), (50, "exit.ip")]

def initFile (d : Handle) (ifname : String) (script : Nat × String) : Path :=
  scriptPath d.next "init" ifname script.1 script.2

def exitFile (d : Handle) (ifname : String) (script : Nat × String) : Path :=
  scriptPath d.current "exit" ifname script.1 script.2

/-- The relation `rel` is respected by everything that is done for `ifname`;
`fine` holds of the other interfaces it may name. -/
structure Rules (d : Handle) (ifname : String) (fine : String → Prop)
    (rel : GenState → GenState → Prop) : Prop where
  refl : ∀ s, rel s s
  trans : ∀ s t u, rel s t → rel t u → rel s u
  opensInit : script ∈ initScripts → Always rel (openInit d ifname script.1 script.2)
  printsInit : script ∈ initScripts → Always rel (print (initFile d ifname script) piece)
  opensExit : script ∈ exitScripts → Always rel (openExit d ifname script.1 script.2)
  printsExit : script ∈ exitScripts → Always rel (print (exitFile d ifname script) piece)
  opensReload : Always rel (openExit d "@post" 90 "reload.sh")
  printsReload : Always rel (print (exitFile d "@post" (90, "reload.sh")) piece)
  adds : fine other → Always rel (addDep d ifname other)
  skips : fine other → Always rel (onTree fun t => daggerSkipIface d t other)

/-- The other interfaces a configuration refers to. -/
structure Refs (fine : String → Prop) (cif : Ptr) : Prop where
  parent : lydxGetCattr cif "type" = some typeVlan → fine (str (lydxGetCattr cif "parent-interface"))
  peer : lydxGetCattr cif "type" = some typeVeth →
    fine (str (lydxGetCattr (lydxGetDescendant (lydChild cif) ["veth"]) "peer"))
  bridge : (lydxGetDescendant (lydChild cif) ["bridge-port"]).isNull = false →
    fine (str (lydxGetCattr (lydxGetDescendant (lydChild cif) ["bridge-port"]) "bridge"))

theorem markCreated_child (cif : Ptr) : (lydChild (markCreated cif)).nodes = (lydChild cif).nodes := by
  obtain ⟨nodes, op⟩ := cif
  cases nodes with
  | nil => rfl
  | cons n rest => cases n <;> rfl

theorem markCreated_cattr (cif : Ptr) (name : String) :
    lydxGetCattr (markCreated cif) name = lydxGetCattr cif name := by
  rw [lydxGetCattr, lydxGetCattr, lydxGetAttr_eq, lydxGetAttr_eq, markCreated_child]

theorem markCreated_name (cif : Ptr) : ifaceName (markCreated cif) = ifaceName cif :=
  congrArg str (markCreated_cattr cif "name")

theorem Refs.created (refs : Refs fine cif) : Refs fine (markCreated cif) := by
  have below := fun names => lydxGetDescendant_nodes names (markCreated_child cif)
  constructor
  case parent =>
    rw [markCreated_cattr, markCreated_cattr]
    exact refs.parent
  case peer =>
    rw [markCreated_cattr, lydxGetCattr_nodes "peer" (below ["veth"])]
    exact refs.peer
  case bridge =>
    rw [isNull_nodes (below ["bridge-port"]), lydxGetCattr_nodes "bridge" (below ["bridge-port"])]
    exact refs.bridge

theorem cattr_not_null (found : lydxGetCattr p name = some value) : p.isNull = false := by
  obtain ⟨nodes, op⟩ := p
  cases nodes with
  | nil => simp [lydxGetCattr, lydxGetAttr_eq, lydChild, Ptr.null, valueOf] at found
  | cons n rest => rfl

theorem descendant_not_null {p : Ptr} (found : (lydxGetDescendant (lydChild p) [name]).isNull = false) :
    p.isNull = false := by
  obtain ⟨nodes, op⟩ := p
  cases nodes with
  | nil => simp [lydxGetDescendant, lydxGetSibling, lydChild, Ptr.null, Ptr.isNull] at found
  | cons n rest => rfl

theorem daggerFopen_file {t : Base Piece} {gen : Int}
    (opened : (daggerFopen t gen action node prio script).2 = .ok file) :
    file = scriptPath gen action node prio script := by
  unfold daggerFopen at opened
  split at opened
  · simp at opened
  · split at opened
    · simp at opened
    · simp only at opened
      split at opened
      · simp at opened
      · simpa using opened.symm

theorem openInit_file (opened : openInit d node prio script s = (.ok file, t)) :
    file = scriptPath d.next "init" node prio script := by
  unfold openInit at opened
  cases result : daggerFopenNext d s.tree "init" node prio script with
  | mk tree outcome =>
    rw [result] at opened
    cases outcome with
    | error e => simp at opened
    | ok path =>
      simp only [Prod.mk.injEq, Except.ok.injEq] at opened
      rw [← opened.1]
      exact daggerFopen_file (congrArg Prod.snd result)

theorem openExit_file (opened : openExit d node prio script s = (.ok (.ok file), t)) :
    file = scriptPath d.current "exit" node prio script ∧ 0 ≤ d.current := by
  unfold openExit daggerFopenCurrent at opened
  by_cases fresh : d.current < 0
  · simp [fresh] at opened
  · simp only [fresh, if_false] at opened
    cases result : daggerFopen s.tree d.current "exit" node prio script with
    | mk tree outcome =>
      rw [result] at opened
      simp only [Prod.mk.injEq, Except.ok.injEq] at opened
      exact ⟨daggerFopen_file ((congrArg Prod.snd result).trans opened.1), by omega⟩

theorem required_ok (returned : required iface leaf s = (.ok value, t)) :
    lydxGetCattr iface leaf = some value ∧ s = t := by
  cases found : lydxGetCattr iface leaf with
  | none =>
    simp only [required, found] at returned
    exact absurd returned fail_ok
  | some _ =>
    simp only [required, found] at returned
    obtain ⟨rfl, rfl⟩ := pure_ok.mp returned
    exact ⟨rfl, rfl⟩

/-- Only a configured interface is deleted to be created again. -/
theorem mustDel_not_null (decided : mustDel op dif cif s = (.ok true, t)) : cif.isNull = false := by
  unfold mustDel at decided
  split at decided
  · have impossible := (pure_ok.mp decided).1
    simp at impossible
  · obtain ⟨iftype, u, read, _⟩ := bind_ok.mp decided
    exact cattr_not_null (required_ok read).1

theorem sysctlBool_file (opened : netdagGenSysctlBool d ifname none node family s = (.ok fp, t)) :
    fp = none ∨ fp = some (initFile d ifname (60, "init.sysctl")) := by
  unfold netdagGenSysctlBool at opened
  split at opened
  · exact .inl (pure_ok.mp opened).1.symm
  · obtain ⟨file, u, first, rest⟩ := bind_ok.mp opened
    obtain ⟨_, v, _, last⟩ := bind_ok.mp rest
    rw [← (pure_ok.mp last).1]
    exact .inr (congrArg some (openInit_file first))

namespace Rules
variable {d : Handle} {ifname : String} {fine : String → Prop} {rel : GenState → GenState → Prop}

theorem pure (rules : Rules d ifname fine rel) (a : α) : Always rel (Pure.pure a : Gen α) :=
  .pure rules.refl a

theorem fail (rules : Rules d ifname fine rel) (e : GenError) : Always rel (Program.fail e : Gen α) :=
  .fail rules.refl e

theorem reads (rules : Rules d ifname fine rel) (iface : Ptr) (leaf : String) :
    Always rel (required iface leaf) := by
  unfold required
  split
  · exact rules.pure _
  · exact rules.fail _

theorem printsIp (rules : Rules d ifname fine rel) (piece : Piece) :
    Always rel (print (initFile d ifname (50, "init.ip")) piece) := rules.printsInit (by decide)

theorem opensIp (rules : Rules d ifname fine rel) : Always rel (openInit d ifname 50 "init.ip") := by
  have member : (50, "init.ip") ∈ initScripts := by decide
  exact rules.opensInit member

theorem exitReload (rules : Rules d ifname fine rel) : Always rel (netdagExitReload d) := by
  refine .bindOf rules.trans rules.opensReload fun s result t opened => ?_
  cases result with
  | error e => exact rules.fail _
  | ok file =>
    obtain ⟨rfl, _⟩ := openExit_file opened
    exact rules.printsReload

theorem diffAddrs (rules : Rules d ifname fine rel) (ipvx : Ptr) :
    Always rel (netdagGenDiffAddrs (initFile d ifname (50, "init.ip")) ifname ipvx) := by
  refine .forEach rules.refl rules.trans _ fun addr _ => ?_
  unfold netdagGenDiffAddr
  refine .ite (fun _ => rules.fail _) fun _ => ?_
  refine .bind rules.trans (.ite (fun _ => rules.printsIp _) fun _ => rules.pure _) fun _ => ?_
  exact .ite (fun _ => rules.printsIp _) fun _ => rules.pure _

theorem confAddrs (rules : Rules d ifname fine rel) (ipvx : Ptr) :
    Always rel (netdagSetConfAddrs (initFile d ifname (50, "init.ip")) ifname ipvx) :=
  .forEach rules.refl rules.trans _ fun _ _ => rules.printsIp _

theorem ipv6Autoconf (rules : Rules d ifname fine rel) (cif dif : Ptr) :
    Always rel (netdagGenIpv6Autoconf (initFile d ifname (50, "init.ip")) cif dif) := by
  unfold netdagGenIpv6Autoconf
  split
  · exact rules.pure _
  · exact rules.printsIp _
  · exact rules.printsIp _

theorem ipv4Autoconf (rules : Rules d ifname fine rel) (cif dif : Ptr) (same : ifaceName dif = ifname) :
    Always rel (netdagGenIpv4Autoconf d cif dif) := by
  unfold netdagGenIpv4Autoconf
  rw [same]
  split
  · exact rules.pure _
  · have member : (60, "zeroconf-up.sh") ∈ initScripts := by decide
    refine .bindOf rules.trans (rules.opensInit member) fun s file t opened => ?_
    obtain rfl : file = initFile d ifname (60, "zeroconf-up.sh") := openInit_file opened
    exact rules.printsInit member
  · have member : (40, "zeroconf-down.sh") ∈ exitScripts := by decide
    refine .bindOf rules.trans (rules.opensExit member) fun s result t opened => ?_
    split
    · exact rules.pure _
    · exact rules.fail _
    · rename_i file
      obtain rfl : file = exitFile d ifname (40, "zeroconf-down.sh") := (openExit_file opened).1
      exact .bind rules.trans (rules.printsExit member) fun _ => rules.exitReload

theorem sysctlBool (rules : Rules d ifname fine rel) (node : Ptr) (family : String)
    (file : fp = none ∨ fp = some (initFile d ifname (60, "init.sysctl"))) :
    Always rel (netdagGenSysctlBool d ifname fp node family) := by
  have member : (60, "init.sysctl") ∈ initScripts := by decide
  unfold netdagGenSysctlBool
  refine .ite (fun _ => rules.pure _) fun _ => ?_
  rcases file with rfl | rfl
  · refine .bindOf rules.trans (rules.opensInit member) fun s file t opened => ?_
    obtain rfl : file = initFile d ifname (60, "init.sysctl") := openInit_file opened
    exact .bind rules.trans (rules.printsInit member) fun _ => rules.pure _
  · refine .bindOf rules.trans (rules.pure _) fun s file t same => ?_
    obtain rfl : initFile d ifname (60, "init.sysctl") = file := (pure_ok.mp same).1
    exact .bind rules.trans (rules.printsInit member) fun _ => rules.pure _

theorem sysctl (rules : Rules d ifname fine rel) (dif : Ptr) (same : ifaceName dif = ifname) :
    Always rel (netdagGenSysctl d dif) := by
  unfold netdagGenSysctl
  rw [same]
  refine .bindOf rules.trans (rules.sysctlBool _ _ (.inl rfl)) fun s fp t opened => ?_
  exact .bind rules.trans (rules.sysctlBool _ _ (sysctlBool_file opened)) fun _ => rules.pure _

theorem veth (rules : Rules d ifname fine rel) (cif : Ptr) (same : ifaceName cif = ifname)
    (peer : fine (str (lydxGetCattr (lydxGetDescendant (lydChild cif) ["veth"]) "peer"))) :
    Always rel (netdagGenVeth d cif (initFile d ifname (50, "init.ip"))) := by
  unfold netdagGenVeth
  rw [same]
  refine .ite (fun _ => rules.fail _) fun _ => ?_
  refine .bind rules.trans (.read rules.refl) fun s => ?_
  refine .ite (fun _ => rules.adds peer) fun _ => ?_
  exact .bind rules.trans (rules.skips peer) fun _ => rules.printsIp _

theorem vlanLine (rules : Rules d ifname fine rel) (parent : Option String) (otag : Ptr) :
    Always rel (printVlan ifname parent otag (initFile d ifname (50, "init.ip"))) := by
  refine .bind rules.trans (rules.printsIp _) fun _ => ?_
  refine .bind rules.trans (.onlyIf rules.refl fun _ => ?_) fun _ => ?_
  · refine .bind rules.trans ?_ fun _ => rules.printsIp _
    unfold vlanProtocol
    split
    · exact rules.pure _
    · exact rules.pure _
    · exact rules.fail _
    · exact rules.fail _
  · exact .bind rules.trans (.onlyIf rules.refl fun _ => rules.printsIp _) fun _ => rules.printsIp _

theorem vlan (rules : Rules d ifname fine rel) (dif cif : Ptr) (same : ifaceName cif = ifname)
    (parent : fine (str (lydxGetCattr cif "parent-interface"))) :
    Always rel (netdagGenVlan d dif cif (initFile d ifname (50, "init.ip"))) := by
  unfold netdagGenVlan
  rw [same]
  exact .bind rules.trans (rules.adds parent) fun _ => .onlyIf rules.refl fun _ => rules.vlanLine _ _

theorem afspecAdd (rules : Rules d ifname fine rel) (cif : Ptr)
    (same : cif.isNull = false → ifaceName cif = ifname) (refs : Refs fine cif) :
    Always rel (netdagGenAfspecAdd d cif (initFile d ifname (50, "init.ip"))) := by
  refine .bindOf rules.trans (rules.reads _ _) fun s iftype t read => ?_
  have found := (required_ok read).1
  refine .ite (fun _ => rules.printsIp _) fun _ => ?_
  refine .ite (fun veth => ?_) fun _ => .ite (fun vlan => ?_) fun _ => rules.fail _
  · exact rules.veth cif (same (cattr_not_null found)) (refs.peer (veth ▸ found))
  · exact rules.vlan .null cif (same (cattr_not_null found)) (refs.parent (vlan ▸ found))

theorem afspecSet (rules : Rules d ifname fine rel) (dif cif : Ptr)
    (same : cif.isNull = false → ifaceName cif = ifname) (refs : Refs fine cif) :
    Always rel (netdagGenAfspecSet d dif cif (initFile d ifname (50, "init.ip"))) := by
  refine .bindOf rules.trans (rules.reads _ _) fun s iftype t read => ?_
  have found := (required_ok read).1
  refine .ite (fun _ => rules.printsIp _) fun _ => ?_
  refine .ite (fun vlan => ?_) fun _ => .ite (fun _ => rules.pure _) fun _ => rules.fail _
  exact rules.vlan dif cif (same (cattr_not_null found)) (refs.parent (vlan ▸ found))

theorem bridgeLinks (rules : Rules d ifname fine rel) (cif : Ptr)
    (same : cif.isNull = false → ifaceName cif = ifname) (refs : Refs fine cif) :
    Always rel (netdagBridgeLinks d cif (initFile d ifname (50, "init.ip"))) := by
  unfold netdagBridgeLinks
  refine .onlyIf rules.refl fun port => .bind rules.trans (rules.printsIp _) fun _ => ?_
  have present : (lydxGetDescendant (lydChild cif) ["bridge-port"]).isNull = false := by
    simpa using port
  rw [same (descendant_not_null present)]
  exact rules.adds (refs.bridge present)

theorem ifaceDel (rules : Rules d ifname fine rel) (dif : Ptr) (same : ifaceName dif = ifname)
    (fixed : Bool) : Always rel (netdagGenIfaceDel d dif fixed) := by
  have member : (50, "exit.ip") ∈ exitScripts := by decide
  unfold netdagGenIfaceDel
  rw [same]
  refine .bindOf rules.trans (rules.opensExit member) fun s result t opened => ?_
  cases result with
  | error e => exact rules.fail _
  | ok file =>
    obtain rfl : file = exitFile d ifname (50, "exit.ip") := (openExit_file opened).1
    refine .ite (fun _ => ?_) fun _ => rules.printsExit member
    exact .bind rules.trans (rules.printsExit member) fun _ => rules.printsExit member

theorem link (rules : Rules d ifname fine rel) (fixed : Bool) (op : Operation) (dif cif : Ptr)
    (difName : ifaceName dif = ifname) (cifName : cif.isNull = false → ifaceName cif = ifname)
    (refs : Refs fine cif) : Always rel (genLink d fixed op dif cif) := by
  unfold genLink
  rw [difName]
  refine .bindOf rules.trans rules.opensIp
    fun s ip t opened => ?_
  obtain rfl : ip = initFile d ifname (50, "init.ip") := openInit_file opened
  refine .bind rules.trans (.onlyIf rules.refl fun _ => rules.afspecAdd cif cifName refs) fun _ => ?_
  refine .bind rules.trans (rules.printsIp _) fun _ => ?_
  refine .bind rules.trans (rules.ipv4Autoconf cif dif difName) fun _ => ?_
  refine .bind rules.trans (rules.ipv6Autoconf cif dif) fun _ => ?_
  refine .bind rules.trans (rules.bridgeLinks cif cifName refs) fun _ => ?_
  refine .bind rules.trans (rules.printsIp _) fun _ => ?_
  refine .bind rules.trans (.onlyIf rules.refl fun _ => ?_) fun _ => rules.pure _
  exact rules.afspecSet dif cif cifName refs

theorem deletes (rules : Rules d ifname fine rel) (op : Operation) (dif cif : Ptr) :
    Always rel (mustDel op dif cif) :=
  .ite (fun _ => rules.pure _) fun _ => .bind rules.trans (rules.reads _ _) fun _ => rules.pure _

/-- A null pointer may come along for an interface that is not configured. -/
theorem untilAddresses (rules : Rules d ifname fine rel) (dif cif : Ptr)
    (difName : ifaceName dif = ifname) (cifName : cif.isNull = false → ifaceName cif = ifname)
    (refs : Refs fine cif) : Always rel (genUntilAddresses d dif cif) := by
  refine .bind rules.trans (.read rules.refl) fun s => ?_
  refine .ite (fun _ => .bind rules.trans (rules.ifaceDel dif difName _) fun _ => rules.pure _)
    fun _ => ?_
  refine .bindOf rules.trans (rules.deletes _ _ _) fun t must u decided => .ite (fun yes => ?_) fun _ => ?_
  · have created : ifaceName (markCreated cif) = ifname :=
      (markCreated_name cif).trans (cifName (mustDel_not_null (yes ▸ decided)))
    refine .bind rules.trans (rules.ifaceDel dif difName _) fun _ => ?_
    exact .bind rules.trans (rules.link _ _ _ _ created (fun _ => created) refs.created)
      fun _ => rules.pure _
  · exact .bind rules.trans (rules.link _ _ _ _ difName cifName refs) fun _ => rules.pure _

theorem admin (rules : Rules d ifname fine rel) (dif cif : Ptr) (difName : ifaceName dif = ifname) :
    Always rel (genAdmin d dif cif (initFile d ifname (50, "init.ip"))) := by
  refine .bind rules.trans (.onlyIf rules.refl fun _ => rules.printsIp _) fun _ => ?_
  exact rules.sysctl dif difName

end Rules
end Netdag
