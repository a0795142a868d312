import InfixOS.Netdag.Emission
import InfixOS.Netdag.Requests

/-! The share of one interface in the requests of the generator: its own scripts,
edges that start at it, and the skip file of its peer. -/
namespace Netdag
open Dagger Exec Exec.Program Lyx Posix Posix.FileTree Yang

/-- The scripts of an interface that follow its link script. -/
def laterScripts : List (Nat × String) := [(60, "zeroconf-up.sh"), (60, "init.sysctl")]

/-- A request made for `ifname` while it is set up; `fine` holds of the other
interfaces it names. Further requests may be allowed. -/
inductive Share (ifname : String) (fine : String → Prop) (extra : Act → Prop) : Act → Prop
  | test (answer : Bool) : Share ifname fine extra (.test ifname answer)
  | dep (ref : fine other) : Share ifname fine extra (.dep ifname other)
  | skip (ref : fine other) : Share ifname fine extra (.skip other)
  | ip (piece : Piece) : Share ifname fine extra (.print .init ifname (50, "init.ip") piece)
  | openLater (listed : script ∈ laterScripts) : Share ifname fine extra (.fopen .init ifname script)
  | later (listed : script ∈ laterScripts) (piece : Piece) :
      Share ifname fine extra (.print .init ifname script piece)
  | openDown : Share ifname fine extra (.fopen .exit ifname (40, "zeroconf-down.sh"))
  | down (piece : Piece) : Share ifname fine extra (.print .exit ifname (40, "zeroconf-down.sh") piece)
  | openReload : Share ifname fine extra (.fopen .exit "@post" (90, "reload.sh"))
  | reload (piece : Piece) : Share ifname fine extra (.print .exit "@post" (90, "reload.sh") piece)
  | own (more : extra act) : Share ifname fine extra act

/-- All of these requests are made for `ifname`. -/
def Shares (ifname : String) (fine : String → Prop) (extra : Act → Prop) (acts : List Act) : Prop :=
  ∀ act ∈ acts, Share ifname fine extra act

/-- The script that deletes an interface is written, or its link script opened. -/
inductive Opening (ifname : String) : Act → Prop
  | init : Opening ifname (.fopen .init ifname (50, "init.ip"))
  | exit : Opening ifname (.fopen .exit ifname (50, "exit.ip"))
  | del (piece : Piece) : Opening ifname (.print .exit ifname (50, "exit.ip") piece)

theorem str_eq (plain : name ≠ "(null)") (same : str value = name) : value = some name := by
  cases value with
  | none => exact absurd same.symm plain
  | some v => exact congrArg some same

/-- Only two types are ever deleted to be created again. -/
theorem recreated_type (again : recreated dif cif = true) :
    lydxGetCattr cif "type" = some typeVlan ∨ lydxGetCattr cif "type" = some typeVeth := by
  simp only [recreated, Bool.and_eq_true] at again
  have must := again.2
  unfold netdagMustDel at must
  split at must
  · simp at must
  · split at must
    · rename_i vlan
      exact .inl (str_eq (by decide) vlan)
    · split at must
      · rename_i veth
        exact .inr (str_eq (by decide) veth)
      · simp at must

namespace Shares
variable {ifname : String} {fine : String → Prop} {extra : Act → Prop} {acts more : List Act}
  {d : Handle} {dif cif : Ptr}

theorem nil : Shares ifname fine extra [] := by simp [Shares]

theorem cons (first : Share ifname fine extra act) (rest : Shares ifname fine extra acts) :
    Shares ifname fine extra (act :: acts) := List.forall_mem_cons.mpr ⟨first, rest⟩

theorem append (first : Shares ifname fine extra acts) (second : Shares ifname fine extra more) :
    Shares ifname fine extra (acts ++ more) := List.forall_mem_append.mpr ⟨first, second⟩

theorem ite {p : Prop} [Decidable p] (yes : p → Shares ifname fine extra acts) (no : ¬p → Shares ifname fine extra more) :
    Shares ifname fine extra (if p then acts else more) := by
  split
  · exact yes ‹_›
  · exact no ‹_›

theorem lines (pieces : List Piece) : Shares ifname fine extra (ipLines ifname pieces) := by
  intro act member
  obtain ⟨piece, _, rfl⟩ := List.mem_map.mp member
  exact .ip piece

theorem ipv4Autoconf : Shares (ifaceName dif) fine extra (ipv4AutoconfActs d cif dif) := by
  unfold ipv4AutoconfActs
  simp only
  split
  · exact .nil
  · exact .cons (.openLater (by decide)) (.cons (.later (by decide) _) .nil)
  · refine .ite (fun _ => .nil) fun _ => ?_
    exact .append (.cons .openDown (.cons (.down _) .nil)) (.cons .openReload (.cons (.reload _) .nil))

theorem forwarding (node : Ptr) (family : String) : Shares ifname fine extra (forwardingActs ifname node family) := by
  unfold forwardingActs
  exact .ite (fun _ => .nil) fun _ => .cons (.later (by decide) _) .nil

theorem sysctl : Shares (ifaceName dif) fine extra (sysctlActs dif) := by
  unfold sysctlActs
  exact .ite (fun _ => .nil) fun _ => .cons (.openLater (by decide)) (.append (.forwarding _ _) (.forwarding _ _))

theorem veth (skip : Bool) (peer : fine (str (vethPeer cif))) :
    Shares (ifaceName cif) fine extra (vethActs skip cif) := by
  unfold vethActs
  exact .cons (.test skip) (.ite (fun _ => .cons (.dep peer) .nil) fun _ => .cons (.skip peer) (.lines _))

theorem vlan (parent : fine (str (lydxGetCattr cif "parent-interface"))) :
    Shares (ifaceName cif) fine extra (vlanActs dif cif) := by
  unfold vlanActs
  exact .cons (.dep parent) (.ite (fun _ => .lines _) fun _ => .nil)

/-- The lists of a configuration are those of the interface it belongs to. -/
theorem afspecAdd (skip : Bool) (named : cif.isNull = false → ifaceName cif = ifname) (refs : Refs fine cif) :
    Shares ifname fine extra (afspecAddActs skip cif) := by
  have own (iftype : String) (type : hasType cif iftype = true) : ifaceName cif = ifname :=
    named (cattr_not_null ((hasType_iff _ _).mp type))
  unfold afspecAddActs
  refine .ite (fun type => ?_) fun _ => .ite (fun type => ?_) fun _ => .ite (fun type => ?_) fun _ => .nil
  · obtain rfl := own _ type
    exact .lines _
  · obtain rfl := own _ type
    exact .veth skip (refs.peer ((hasType_iff _ _).mp type))
  · obtain rfl := own _ type
    exact .vlan (refs.parent ((hasType_iff _ _).mp type))

theorem afspecSet (named : cif.isNull = false → ifaceName cif = ifname) (refs : Refs fine cif) :
    Shares ifname fine extra (afspecSetActs dif cif) := by
  have own (iftype : String) (type : hasType cif iftype = true) : ifaceName cif = ifname :=
    named (cattr_not_null ((hasType_iff _ _).mp type))
  unfold afspecSetActs
  refine .ite (fun type => ?_) fun _ => .ite (fun type => ?_) fun _ => .nil
  · obtain rfl := own _ type
    exact .lines _
  · obtain rfl := own _ type
    exact .vlan (refs.parent ((hasType_iff _ _).mp type))

theorem bridge (named : cif.isNull = false → ifaceName cif = ifname) (refs : Refs fine cif) :
    Shares ifname fine extra (bridgeActs cif) := by
  unfold bridgeActs
  refine .ite (fun port => ?_) fun _ => .nil
  have present : (lydxGetDescendant (lydChild cif) ["bridge-port"]).isNull = false := by
    simpa [bridgePort] using port
  obtain rfl := named (descendant_not_null present)
  exact .append (.lines _) (.cons (.dep (refs.bridge present)) .nil)

theorem admin : Shares (ifaceName dif) fine extra (adminActs dif cif) :=
  .append (.ite (fun _ => .lines _) fun _ => .nil) .sysctl

theorem del (fixed : Bool) : Shares ifname fine (Opening ifname) (delActs ifname fixed) := by
  refine .cons (.own .exit) fun act member => ?_
  obtain ⟨piece, _, rfl⟩ := List.mem_map.mp member
  exact .own (.del piece)

/-- The link script is opened first, and once. -/
theorem setup (fixed skip : Bool) (op : Operation) (named : cif.isNull = false → ifaceName cif = ifaceName dif)
    (refs : Refs fine cif) (extra : Act → Prop) : ∃ rest,
      setupActs d fixed skip op dif cif = .fopen .init (ifaceName dif) (50, "init.ip") :: rest ∧
      Shares (ifaceName dif) fine extra rest := by
  refine ⟨_, rfl, ?_⟩
  have added : Shares (ifaceName dif) fine extra
      (if !fixed && op = .create then afspecAddActs skip cif else []) :=
    .ite (fun _ => .afspecAdd skip named refs) fun _ => .nil
  have adjusted : Shares (ifaceName dif) fine extra
      (if !fixed && op ≠ .create then afspecSetActs dif cif else []) :=
    .ite (fun _ => .afspecSet named refs) fun _ => .nil
  have autoconf : Shares (ifaceName dif) fine extra (ipv4AutoconfActs d cif dif) := .ipv4Autoconf
  have link := ((((added.append (.lines [.linkSetDown (ifaceName dif)])).append autoconf).append
    (.lines (ipv6AutoconfPieces cif dif))).append (.bridge named refs)).append (.lines [.newline])
  exact ((link.append adjusted).append (.lines _)).append .admin

theorem iface (fixed skip : Bool) (named : cif.isNull = false → ifaceName cif = ifaceName dif)
    (refs : Refs fine cif) :
    Shares (ifaceName dif) fine (Opening (ifaceName dif)) (ifaceActs d fixed skip dif cif) := by
  unfold ifaceActs
  refine .ite (fun _ => .del fixed) fun _ => .ite (fun again => ?_) fun _ => ?_
  · have configured : cif.isNull = false := by
      rcases recreated_type again with vlan | veth
      · exact cattr_not_null vlan
      · exact cattr_not_null veth
    have same : ifaceName (markCreated cif) = ifaceName dif := (markCreated_name cif).trans (named configured)
    have own (_ : (markCreated cif).isNull = false) : ifaceName (markCreated cif) = ifaceName (markCreated cif) := rfl
    obtain ⟨rest, opened, shares⟩ := setup (d := d) fixed skip .create own refs.created (Opening (ifaceName dif))
    rw [opened, same]
    exact .append (.del fixed) (.cons (.own .init) (same ▸ shares))
  · obtain ⟨rest, opened, shares⟩ := setup (d := d) fixed skip (lydxGetOp dif) named refs
      (Opening (ifaceName dif))
    rw [opened]
    exact .cons (.own .init) shares

end Shares

theorem laterScripts_plain : ∀ script ∈ laterScripts, Plain script.2 ∧ script.1 ≤ 99 := by decide

theorem Share.fine (share : Share ifname Plain (Opening ifname) act) (plain : Plain ifname) : act.Fine := by
  cases share with
  | test answer => exact plain
  | dep ref => exact ⟨plain, ref⟩
  | skip ref => exact ref
  | ip piece => exact ⟨plain, by decide, by decide⟩
  | openLater listed => exact ⟨plain, laterScripts_plain _ listed⟩
  | later listed piece => exact ⟨plain, laterScripts_plain _ listed⟩
  | openDown => exact ⟨plain, by decide, by decide⟩
  | down piece => exact ⟨plain, by decide, by decide⟩
  | openReload => exact ⟨by decide, by decide, by decide⟩
  | reload piece => exact ⟨by decide, by decide, by decide⟩
  | own more =>
    cases more with
    | init => exact ⟨plain, by decide, by decide⟩
    | exit => exact ⟨plain, by decide, by decide⟩
    | del piece => exact ⟨plain, by decide, by decide⟩

/-- The interfaces of a tree. -/
def ifaces (tree : List Node) : List Ptr := lyxListForEach (interfacesOf tree) "interface"

/-- Every name in a configuration and its diff satisfies `fine`. -/
structure NamesIn (fine : String → Prop) (cfg diff : List Node) : Prop where
  own : ∀ cif ∈ ifaces cfg, fine (ifaceName cif)
  refs : ∀ cif ∈ ifaces cfg, Refs fine cif
  changed : ∀ dif ∈ ifaces diff, fine (ifaceName dif)

theorem Refs.mono (refs : Refs fine cif) (weaker : ∀ name, fine name → fine' name) : Refs fine' cif where
  parent := fun type => weaker _ (refs.parent type)
  peer := fun type => weaker _ (refs.peer type)
  bridge := fun port => weaker _ (refs.bridge port)

theorem NamesIn.mono (names : NamesIn fine cfg diff) (weaker : ∀ name, fine name → fine' name) :
    NamesIn fine' cfg diff where
  own := fun cif member => weaker _ (names.own cif member)
  refs := fun cif member => (names.refs cif member).mono weaker
  changed := fun dif member => weaker _ (names.changed dif member)

instance [DecidablePred fine] (cif : Ptr) : Decidable (Refs fine cif) :=
  decidable_of_iff
    ((lydxGetCattr cif "type" = some typeVlan → fine (str (lydxGetCattr cif "parent-interface"))) ∧
      (lydxGetCattr cif "type" = some typeVeth → fine (str (vethPeer cif))) ∧
      ((bridgePort cif).isNull = false → fine (str (lydxGetCattr (bridgePort cif) "bridge"))))
    ⟨fun h => ⟨h.1, h.2.1, h.2.2⟩, fun h => ⟨h.parent, h.peer, h.bridge⟩⟩

instance [DecidablePred fine] (cfg diff : List Node) : Decidable (NamesIn fine cfg diff) :=
  decidable_of_iff
    ((∀ cif ∈ ifaces cfg, fine (ifaceName cif)) ∧ (∀ cif ∈ ifaces cfg, Refs fine cif) ∧
      ∀ dif ∈ ifaces diff, fine (ifaceName dif))
    ⟨fun h => ⟨h.1, h.2.1, h.2.2⟩, fun h => ⟨h.own, h.refs, h.changed⟩⟩

theorem Refs.null : Refs fine .null where
  parent := nofun
  peer := nofun
  bridge := nofun

theorem NamesIn.found (names : NamesIn fine cfg diff) (dif : Ptr) : Refs fine (findCif (interfacesOf cfg) dif) := by
  unfold findCif
  cases found : (lyxListForEach (interfacesOf cfg) "interface").find? fun cif => ifaceName cif = ifaceName dif with
  | none => exact .null
  | some cif => exact names.refs cif (List.mem_of_find?_eq_some found)

/-- Who asked for what. -/
theorem planActs_share (names : NamesIn fine cfg diff) (member : act ∈ planActs d k (interfacesOf cfg) plan) :
    ∃ step ∈ plan, Share (ifaceName step.1) fine (Opening (ifaceName step.1)) act := by
  obtain ⟨step, listed, asked⟩ := List.mem_flatMap.mp member
  exact ⟨step, listed, Shares.iface _ _ (findCif_name _ _) (names.found _) act asked⟩

/-- A run of the generator that does not fail, on an open transaction. -/
structure Generated (d : Handle) (k : Nat) (kernel : Kernel) (cfg diff : List Node) (plan : Plan)
    (t u v : Base Piece) : Prop where
  all : plan.map Prod.fst = ifaces diff
  nodes : Performs d t (nodeActs (interfacesOf cfg) (interfacesOf diff)) u
  nodesReady : Admissible d k t (nodeActs (interfacesOf cfg) (interfacesOf diff))
  made : Performs d u (planActs d kernel (interfacesOf cfg) plan) v
  ready : Admissible d k u (planActs d kernel (interfacesOf cfg) plan)

theorem mem_nodeActs : act ∈ nodeActs (interfacesOf cfg) (interfacesOf diff) ↔
    ∃ iface ∈ ifaces cfg ++ ifaces diff, act = .node (ifaceName iface) := by
  simp only [nodeActs, List.mem_map, ifaces, @eq_comm Act _ act]

theorem generate_generated (returned : generate d cfg diff s = (.ok a, v)) (opened : Opened d k s.tree)
    (names : NamesIn Plain cfg diff) :
    ∃ plan u, Generated d k s.kernel cfg diff plan s.tree u v.tree := by
  obtain ⟨plan, all, performs⟩ := generate_emits returned
  obtain ⟨u, first, second⟩ := performs_append.mp performs
  have nodesReady : Admissible d k s.tree (nodeActs (interfacesOf cfg) (interfacesOf diff)) := by
    refine ⟨opened, fun act member => ?_, fun a b member => ?_⟩
    · obtain ⟨iface, listed, rfl⟩ := mem_nodeActs.mp member
      rcases List.mem_append.mp listed with own | changed
      · exact names.own iface own
      · exact names.changed iface changed
    · obtain ⟨iface, _, impossible⟩ := mem_nodeActs.mp member
      cases impossible
  have mentioned (step : Ptr × Bool) (listed : step ∈ plan) : step.1 ∈ ifaces diff :=
    (all ▸ List.mem_map_of_mem listed : step.1 ∈ lyxListForEach (interfacesOf diff) "interface")
  refine ⟨plan, u, all, first, nodesReady, second, (first.effect nodesReady).1, ?_, ?_⟩
  · intro act member
    obtain ⟨step, listed, share⟩ := planActs_share names member
    exact share.fine (names.changed _ (mentioned step listed))
  · intro a b member
    obtain ⟨step, listed, share⟩ := planActs_share names member
    cases share with
    | own more => cases more
    | dep ref =>
      exact first.node nodesReady
        (mem_nodeActs.mpr ⟨step.1, List.mem_append_right _ (mentioned step listed), rfl⟩)

end Netdag
