import InfixOS.Netdag.Devices
import InfixOS.Netdag.Recreation

/-! Bridges and their ports over a transaction. The generator prints a master for an
interface that is configured as a port, and nothing for one that is not. -/
namespace Netdag
open Core Dagger Keyed Lyx Posix Yang

/-- The link scripts of a transaction, a batch each, in the order they are run. -/
def linkScripts (s : Running) (mid : Net) (down up : List String) : List (List Piece) :=
  (if 0 < s.net.generations then
    down.map fun v => scriptPieces mid.world.tree (scriptOf s.net.generations .exit v (50, "exit.ip")) else []) ++
  up.map mid.initScript

/-- The exit scripts delete the device `x`, or one that it goes with. -/
def Lost (s : Running) (change : Change) (links : Links) (x : String) : Prop :=
  ∃ y, Drops change y ∧ isFixed s.net.kernel y = false ∧ Vanishes links y x

section Entries
variable {cfg : List Node} {change : Change} {dif : Ptr}

theorem Turns.names_of_new (turns : Turns cfg change) (member : dif ∈ ifaces change.diff) (alive : lydxGetOp dif ≠ .delete) :
    findCif (interfacesOf change.cfg) dif ∈ ifaces change.cfg := by
  cases found : (lyxListForEach (interfacesOf change.cfg) "interface").find? fun cif => ifaceName cif = ifaceName dif with
  | some cif =>
    rw [findCif, found]
    exact List.mem_of_find?_eq_some found
  | none =>
    have missing : findCif (interfacesOf change.cfg) dif = .null := by
      rw [findCif, found]
      rfl
    have delta := turns.delta member
    rw [missing] at delta
    cases delta with
    | created _ is body _ => exact absurd (congrArg Ptr.nodes is).symm body.not_nil
    | changed _ is _ body _ => exact absurd (congrArg Ptr.nodes is).symm body.not_nil
    | deleted _ _ _ below => exact absurd (getOp_of below) alive

/-- What is created was not there. -/
theorem Turns.old_iff (turns : Turns cfg change) (member : dif ∈ ifaces change.diff) :
    ifaceName dif ∈ (ifaces cfg).map ifaceName ↔ lydxGetOp dif ≠ .create := by
  constructor
  · intro listed created
    obtain ⟨cif, inside, name⟩ := List.mem_map.mp listed
    have found : findCif (interfacesOf cfg) dif = cif := findCif_eq turns.old.unique inside name.symm
    have present := lyxListForEach_not_null inside
    cases turns.delta member with
    | created was _ _ _ =>
      rw [found] at was
      simp [was, Ptr.null, Ptr.isNull] at present
    | changed _ _ _ _ below => simp [getOp_of below] at created
    | deleted _ _ _ below => simp [getOp_of below] at created
  · intro was
    have inside := turns.names_of_old member was
    exact List.mem_map.mpr ⟨_, inside, findCif_name _ dif (lyxListForEach_not_null inside)⟩

end Entries

section Owned
variable {dif cif : Ptr} {fixed skip : Bool} {op : Operation} {piece : Piece}

theorem subject_names (named : z ∈ piece.subject) : z ∈ piece.names := by
  cases piece <;> simp_all [Piece.subject, Piece.names]

/-- The lines that add a link are about it, from the first word on. -/
theorem vlanPieces_subject (member : piece ∈ vlanPieces ifname parent otag) : ∀ z ∈ piece.subject, z = ifname := by
  obtain ⟨tail, pieces, quiet⟩ := vlan_pieces ifname parent otag
  rw [pieces] at member
  intro z named
  rcases List.mem_cons.mp member with rfl | later
  · exact (Option.some.inj named).symm
  · simpa [(quiet piece later).2] using subject_names named

theorem vlanLine_subject (member : piece ∈ vlanLine dif cif) : ∀ z ∈ piece.subject, z = ifaceName cif := by
  simp only [vlanLine, List.mem_ite_nil_right] at member
  exact vlanPieces_subject member.2

theorem add_subject (member : piece ∈ addPieces skip cif) : ∀ z ∈ piece.subject, z = ifaceName cif := by
  unfold addPieces at member
  split at member
  · simp_all [Piece.subject]
  split at member
  · split at member <;> simp_all [Piece.subject]
  split at member
  · exact vlanLine_subject member
  · simp at member

theorem add_begins (first : addPieces skip cif = piece :: rest) : piece.subject = some (ifaceName cif) := by
  by_cases bridge : lydxGetCattr cif "type" = some typeBridge
  · rw [add_bridge bridge] at first
    exact (List.cons.inj first).1 ▸ rfl
  by_cases veth : lydxGetCattr cif "type" = some typeVeth
  · rw [add_veth veth] at first
    split at first
    · simp at first
    · exact (List.cons.inj first).1 ▸ rfl
  by_cases vlan : lydxGetCattr cif "type" = some typeVlan
  · rw [add_vlan vlan] at first
    split at first
    · simp at first
    · exact (List.cons.inj first).1 ▸ rfl
  · simp [addPieces, hasType, bridge, veth, vlan] at first

theorem set_subject (named : cif.isNull = false → ifaceName cif = ifaceName dif) (member : piece ∈ setPieces dif cif) :
    ∀ z ∈ piece.subject, z = ifaceName dif := by
  unfold setPieces at member
  split at member
  · rename_i type
    rw [← named (cattr_not_null ((hasType_iff _ _).mp type))]
    simp_all [Piece.subject]
  split at member
  · rename_i type
    rw [← named (cattr_not_null ((hasType_iff _ _).mp type))]
    exact vlanLine_subject member
  · simp at member

theorem address_subject (member : piece ∈ addressPieces family cif dif) : ∀ z ∈ piece.subject, z = ifaceName dif := by
  unfold addressPieces at member
  simp only at member
  split at member
  · simp at member
  split at member
  · obtain ⟨addr, _, rfl⟩ := List.mem_map.mp member
    simp [Piece.subject]
  · obtain ⟨addr, _, line⟩ := List.mem_flatMap.mp member
    unfold diffAddrPieces at line
    simp only at line
    rcases List.mem_append.mp line with del | add
    · split at del <;> simp_all [Piece.subject]
    · split at add <;> simp_all [Piece.subject]

theorem setup_own (fixed skip : Bool) (op : Operation) (named : cif.isNull = false → ifaceName cif = ifaceName dif) :
    OwnScript (ifaceName dif) (setupPieces fixed skip op dif cif) where
  kept := by
    rintro piece member z rfl
    exact setup_no_del fixed skip op dif cif z member
  begins := by
    intro piece head
    unfold setupPieces at head
    simp only [List.append_assoc] at head
    split at head
    · cases adds : addPieces skip cif with
      | nil =>
        obtain rfl : .linkSetDown (ifaceName dif) = piece := by simpa [adds] using head
        rfl
      | cons first rest =>
        have inside : first ∈ addPieces skip cif := by simp [adds]
        obtain ⟨_, type⟩ := add_typed inside
        obtain rfl : first = piece := by simpa [adds] using head
        rw [add_begins adds, named (cattr_not_null type)]
    · obtain rfl : .linkSetDown (ifaceName dif) = piece := by simpa using head
      rfl
  own := by
    intro piece member
    unfold setupPieces at member
    simp only [List.append_assoc, List.mem_append] at member
    rcases member with add | down | mode | port | blank | set | four | six | up
    · split at add
      · obtain ⟨_, type⟩ := add_typed add
        rw [← named (cattr_not_null type)]
        exact add_subject add
      · simp at add
    · simp_all [Piece.subject]
    · unfold ipv6AutoconfPieces at mode
      split at mode <;> simp_all [Piece.subject]
    · unfold portPieces at port
      split at port <;> simp_all [Piece.subject]
    · simp_all [Piece.subject]
    · split at set
      · exact set_subject named set
      · simp at set
    · exact address_subject four
    · exact address_subject six
    · unfold upPieces at up
      split at up <;> simp_all [Piece.subject]

theorem recreated_name (again : recreated dif cif = true) (named : cif.isNull = false → ifaceName cif = ifaceName dif) :
    ifaceName (markCreated cif) = ifaceName dif := by
  refine (markCreated_name cif).trans (named ?_)
  rcases recreated_type again with vlan | veth
  · exact cattr_not_null vlan
  · exact cattr_not_null veth

theorem init_own (fixed skip : Bool) (named : cif.isNull = false → ifaceName cif = ifaceName dif) :
    OwnScript (ifaceName dif) (initPieces fixed skip dif cif) := by
  unfold initPieces
  cases again : recreated dif cif with
  | false => exact setup_own _ _ _ named
  | true =>
    rw [← recreated_name again named]
    exact setup_own _ _ _ fun _ => rfl

theorem init_down (fixed skip : Bool) (named : cif.isNull = false → ifaceName cif = ifaceName dif) :
    .linkSetDown (ifaceName dif) ∈ initPieces fixed skip dif cif := by
  unfold initPieces
  cases again : recreated dif cif with
  | false => simp [setupPieces]
  | true =>
    rw [← recreated_name again named]
    simp [setupPieces]

end Owned

/-- The pieces that set something on the line that takes a link down. -/
def Piece.general : Piece → Bool
  | .master _ | .addrgenmode _ => true
  | _ => false

section General
variable {dif cif : Ptr} {skip : Bool} {piece : Piece}

theorem vlanLine_general (member : piece ∈ vlanLine dif cif) : piece.general = false := by
  simp only [vlanLine, vlanPieces, List.cons_append, List.mem_ite_nil_right, List.mem_cons, List.mem_append] at member
  rcases member with ⟨_, rfl | (⟨_, rfl | none⟩ | ⟨_, rfl | none⟩) | rfl | none⟩
  all_goals first | rfl | simp at none

theorem add_general (member : piece ∈ addPieces skip cif) : piece.general = false := by
  unfold addPieces at member
  split at member
  · exact List.mem_singleton.mp member ▸ rfl
  split at member
  · split at member
    · simp at member
    · exact List.mem_singleton.mp member ▸ rfl
  split at member
  · exact vlanLine_general member
  · simp at member

theorem set_general (member : piece ∈ setPieces dif cif) : piece.general = false := by
  unfold setPieces at member
  split at member
  · exact List.mem_singleton.mp member ▸ rfl
  split at member
  · exact vlanLine_general member
  · simp at member

theorem address_general (member : piece ∈ addressPieces family cif dif) : piece.general = false := by
  unfold addressPieces at member
  simp only at member
  split at member
  · simp at member
  split at member
  · obtain ⟨addr, _, rfl⟩ := List.mem_map.mp member
    rfl
  · obtain ⟨addr, _, line⟩ := List.mem_flatMap.mp member
    simp only [diffAddrPieces, List.mem_append, List.mem_ite_nil_right, List.mem_singleton] at line
    rcases line with ⟨_, rfl⟩ | ⟨_, rfl⟩ <;> rfl

theorem up_general (member : piece ∈ upPieces dif cif) : piece.general = false := by
  unfold upPieces at member
  split at member
  · exact List.mem_singleton.mp member ▸ rfl
  · simp at member

variable {α : Type} {setting : Setting α}

/-- What a script sets in general, it sets on one line. -/
theorem setup_gives (only : ∀ piece : Piece, piece.general = false → setting.gives piece = none)
    (fixed skip : Bool) (op : Operation) (dif cif : Ptr) :
    (setupPieces fixed skip op dif cif).filterMap setting.gives =
      (ipv6AutoconfPieces cif dif ++ portPieces cif).filterMap setting.gives := by
  have quiet {pieces : List Piece} (plain : ∀ piece ∈ pieces, piece.general = false) :
      pieces.filterMap setting.gives = [] :=
    List.filterMap_eq_nil_iff.mpr fun piece member => only piece (plain piece member)
  have add : (if !fixed && op = .create then addPieces skip cif else []).filterMap setting.gives = [] :=
    quiet fun piece member => add_general (List.mem_ite_nil_right.mp member).2
  have set : (if !fixed && op ≠ .create then setPieces dif cif else []).filterMap setting.gives = [] :=
    quiet fun piece member => set_general (List.mem_ite_nil_right.mp member).2
  have address (family : Family) : (addressPieces family cif dif).filterMap setting.gives = [] :=
    quiet fun _ => address_general
  have up : (upPieces dif cif).filterMap setting.gives = [] := quiet fun _ => up_general
  have blank : setting.gives .newline = none := only _ rfl
  have down : setting.gives (.linkSetDown (ifaceName dif)) = none := only _ rfl
  simp only [setupPieces, List.filterMap_append, add, set, address, up]
  simp [blank, down]

/-- The bridge that an interface is configured to be a port of. -/
def bridgeOf (cif : Ptr) : Option String :=
  if (bridgePort cif).isNull then none else some (str (lydxGetCattr (bridgePort cif) "bridge"))

theorem bridgeOf_child (same : (lydChild cif').nodes = (lydChild cif).nodes) : bridgeOf cif' = bridgeOf cif := by
  have port := bridgePort_child same
  rw [bridgeOf, bridgeOf, isNull_nodes port, lydxGetCattr_nodes "bridge" port]

theorem setup_master (fixed skip : Bool) (op : Operation) (dif cif : Ptr) :
    (setupPieces fixed skip op dif cif).filterMap masterSetting.gives = ((bridgeOf cif).map some).toList := by
  have mode : (ipv6AutoconfPieces cif dif).filterMap masterSetting.gives = [] := by
    unfold ipv6AutoconfPieces
    split <;> rfl
  rw [setup_gives fun piece => by cases piece <;> simp [Piece.general, masterSetting], List.filterMap_append, mode,
    portPieces, bridgeOf]
  cases (bridgePort cif).isNull <;> rfl

/-- The script of an interface makes it a port of its bridge. -/
theorem init_master (fixed skip : Bool) (dif cif : Ptr) :
    (initPieces fixed skip dif cif).filterMap masterSetting.gives = ((bridgeOf cif).map some).toList := by
  unfold initPieces
  split
  · rw [setup_master, bridgeOf_child (markCreated_child cif)]
  · rw [setup_master]

end General

section Runs
variable {base : String} {s : Running} {mid : Net} {change : Change} {plan : Plan} {u : Base Piece}
  {devices after : Devices} {down up : List String}

theorem Accepted.init_scripts (accepted : Accepted base s.net change plan u mid)
    (names : NamesIn Plain change.cfg change.diff) (unique : ((ifaces change.diff).map ifaceName).Nodup) (v : String) :
    OwnScript v (mid.initScript v) := by
  have nothing : OwnScript v [] := ⟨by simp, by simp, by simp⟩
  by_cases planned : v ∈ plan.map fun step => ifaceName step.1
  · obtain ⟨step, listed, rfl⟩ := List.mem_map.mp planned
    rw [accepted.init_script names unique listed]
    split
    · exact nothing
    · exact init_own _ _ (findCif_name _ _)
  · rw [accepted.init_unplanned names planned]
    exact nothing

/-- The run of a transaction. First the exit scripts leave what they do not delete,
then the link scripts set the interfaces up. -/
theorem Accepted.runs (accepted : Accepted base s.net change plan u mid) (steady : Steady base s)
    (names : NamesIn Plain change.cfg change.diff) (differs : Differs s.cfg change.diff)
    (all : ∀ cif ∈ ifaces s.cfg, ifaceName cif ∈ down)
    (ran : devices.runScripts (linkScripts s mid down up) = some after) :
    ∃ gone bare, Left devices gone bare ∧ (∀ y, y ∈ gone ↔ Drops change y ∧ isFixed s.net.kernel y = false) ∧
      bare.runScripts (up.map mid.initScript) = some after := by
  rw [linkScripts, Devices.runScripts_append] at ran
  obtain ⟨bare, first, ran⟩ := Option.bind_eq_some_iff.mp ran
  split at first
  · rename_i positive
    have scripts : (down.map fun v => scriptPieces mid.world.tree (scriptOf s.net.generations .exit v (50, "exit.ip"))) =
        down.map fun v => (takedownOf s.net.kernel change v).pieces v :=
      List.map_congr_left fun v _ => accepted.exit_script positive names differs.unique v
    rw [scripts] at first
    refine ⟨_, bare, (Left.start devices).run first, fun y => ?_, ran⟩
    rw [List.nil_append, List.mem_flatMap, ← takedownOf_eq_del]
    constructor
    · rintro ⟨v, _, member⟩
      cases taken : takedownOf s.net.kernel change v <;> simp_all [Takedown.gone]
    · intro del
      obtain ⟨cif, member, rfl⟩ := List.mem_map.mp (differs.drops (takedownOf_eq_del.mp del).1)
      exact ⟨_, all cif member, by simp [del, Takedown.gone]⟩
  · rename_i none
    obtain rfl : devices = bare := Option.some.inj first
    refine ⟨[], devices, .start devices, fun y => ?_, ran⟩
    simp only [List.not_mem_nil, false_iff, not_and]
    intro drops
    obtain ⟨cif, member, _⟩ := List.mem_map.mp (differs.drops drops)
    exact absurd (steady.nodes member).1 none

theorem released_eq_some : released goes master = some b ↔ master = some b ∧ ¬goes b := by
  cases master with
  | none => simp [released]
  | some c =>
    by_cases lost : goes c
    · rw [released, if_pos lost]
      refine iff_of_false (by simp) ?_
      rintro ⟨same, kept⟩
      exact kept (Option.some.inj same ▸ lost)
    · rw [released, if_neg lost]
      exact ⟨fun same => ⟨same, Option.some.inj same ▸ lost⟩, And.left⟩

/-- The ports that are left have the masters that are left. -/
theorem Left.master_iff (left : Left devices gone bare) :
    masterSetting.first (bare x) = some b ↔
      (¬∃ y ∈ gone, Vanishes devices.kinds y x) ∧ (¬∃ y ∈ gone, Vanishes devices.kinds y b) ∧
        ∃ d, devices x = some d ∧ d.master = some b := by
  constructor
  · intro has
    cases held : bare x with
    | none => simp [held, Setting.first, masterSetting] at has
    | some d =>
      obtain ⟨d0, was, _, _, _, master⟩ := left.old held
      have port : d.master = some b := by simpa [held, Setting.first, masterSetting] using has
      rw [master] at port
      obtain ⟨before, kept⟩ := released_eq_some.mp port
      refine ⟨?_, kept, d0, was, before⟩
      rintro ⟨y, member, vanishes⟩
      have none : bare x = none := Devices.kinds_eq_none.mp (left.remaining.lost member vanishes)
      simp [held] at none
  · rintro ⟨there, kept, d0, was, before⟩
    have same := left.remaining.kept (w := x) (by simpa using there)
    have present : bare x ≠ none := by
      intro none
      rw [Devices.kinds, none, Devices.kinds, was] at same
      simp at same
    obtain ⟨d, held⟩ := Option.ne_none_iff_exists'.mp present
    obtain ⟨d1, was', _, _, _, master⟩ := left.old held
    obtain rfl : d0 = d1 := Option.some.inj (was.symm.trans was')
    simp only [held, Setting.first, masterSetting, Option.map_some, Option.getD_some, master]
    exact released_eq_some.mpr ⟨before, kept⟩

end Runs

/-- The master of a changed interface after the scripts of a transaction is the bridge
that it is configured as a port of. An interface that is a port of nothing keeps its
master, unless one of the two is deleted. -/
theorem masters_follow (base : String) (nonempty : base ≠ "") (literal : Literal base) (s : Running)
    (commits : Commits base NamesPlain s) (change : Change) (names : NamesPlain s change) (turns : Turns s.cfg change)
    (mid : Net) (accepted : ifchange base change s.net = (.ok, mid)) (down up : List String)
    (all : ∀ cif ∈ ifaces s.cfg, ifaceName cif ∈ down) (devices after : Devices)
    (ran : devices.runScripts (linkScripts s mid down up) = some after) (dif : Ptr) (changed : dif ∈ ifaces change.diff)
    (alive : lydxGetOp dif ≠ .delete) (listed : ifaceName dif ∈ up) :
    ∃ d, after (ifaceName dif) = some d ∧ ∀ b, d.master = some b ↔
      bridgeOf (findCif (interfacesOf change.cfg) dif) = some b ∨
      bridgeOf (findCif (interfacesOf change.cfg) dif) = none ∧
        ¬Lost s change devices.kinds (ifaceName dif) ∧ ¬Lost s change devices.kinds b ∧
        ∃ d0, devices (ifaceName dif) = some d0 ∧ d0.master = some b := by
  have steady := commits.steady nonempty literal fun _ _ plain => plain
  obtain ⟨plan, u, filled⟩ := steady.accepted names accepted
  obtain ⟨gone, bare, left, which, ran⟩ := filled.runs steady names turns.differs all ran
  obtain ⟨skip, script⟩ := filled.own_init names turns changed alive
  have lost (x : String) : Lost s change devices.kinds x ↔ ∃ y ∈ gone, Vanishes devices.kinds y x := by
    simp only [Lost, which, and_assoc]
  have gives := init_master (isFixed s.net.kernel (ifaceName dif)) skip dif (findCif (interfacesOf change.cfg) dif)
  rw [← script] at gives
  have once : ((mid.initScript (ifaceName dif)).filterMap masterSetting.gives).length ≤ 1 := by
    rw [gives]
    cases bridgeOf (findCif (interfacesOf change.cfg) dif) <;> simp
  obtain ⟨d, found, master⟩ := masterSetting.after_scripts (fun v _ => filled.init_scripts names turns.unique v) listed
    once (by rw [script]; exact init_down _ _ (findCif_name _ _)) ran
  refine ⟨d, found, fun b => ?_⟩
  rw [gives] at master
  rw [show d.master = _ from master]
  cases bridge : bridgeOf (findCif (interfacesOf change.cfg) dif) with
  | some c => simp
  | none =>
    simp only [Option.map_none, Option.toList_none, List.head?_nil, Option.getD_none, reduceCtorEq, true_and, false_or,
      lost]
    exact left.master_iff

/-- A bridge, and a port that may be one of its own. -/
def bridgeAnd (port : List Node) : List Node := interfaces [ifaceEntry "br0" typeBridge [], ifaceEntry "eth0" ethernetType port]

def bridgeRunning : Running := (Running.boot twoPorts).to
  (bridgeAnd [.inner "bridge-port" [] .plain [.leaf "bridge" "br0" false .plain]]) (linked [("eth0", .ether), ("br0", .bridge)])

/-- The CHANGE that takes the port out of the bridge. -/
def portLeaves : Change := changeTo bridgeRunning.cfg (bridgeAnd [])

def portLeft : Net := (ifchange "/run/net" portLeaves bridgeRunning.net).2

def bridgedDevices : Devices
  | "eth0" => some { Device.new .ether with master := some "br0" }
  | "br0" => some (.new .bridge)
  | _ => none

/-- The port is still there as a port. -/
theorem masters_follow_leaving : ∃ after d,
    linkScripts bridgeRunning portLeft ["eth0", "br0"] ["br0", "eth0"] =
      [[], [], [], [.linkSetDown "eth0", .addrgenmode "none", .newline, .linkSetUp "eth0"]] ∧
    bridgedDevices.runScripts (linkScripts bridgeRunning portLeft ["eth0", "br0"] ["br0", "eth0"]) = some after ∧
    after "eth0" = some d ∧ d.master = some "br0" := by
  have goes : (Running.boot twoPorts).Goes bridgeRunning.cfg := by decide +kernel
  have plain : NamesIn Plain (changeTo [] bridgeRunning.cfg).cfg (changeTo [] bridgeRunning.cfg).diff := by decide +kernel
  have commits : Commits "/run/net" NamesPlain bridgeRunning := (Commits.boot _).to _ _ goes plain
  have names : NamesIn Plain portLeaves.cfg portLeaves.diff := by decide +kernel
  have turns : Turns bridgeRunning.cfg portLeaves := ⟨by decide +kernel, by decide +kernel, rfl⟩
  have ok : (ifchange "/run/net" portLeaves bridgeRunning.net).1 = .ok := by decide +kernel
  have accepted : ifchange "/run/net" portLeaves bridgeRunning.net = (.ok, portLeft) := by rw [portLeft, ← ok]
  have scripts : linkScripts bridgeRunning portLeft ["eth0", "br0"] ["br0", "eth0"] =
      [[], [], [], [.linkSetDown "eth0", .addrgenmode "none", .newline, .linkSetUp "eth0"]] := by decide +kernel
  have facts : ∃ dif ∈ ifaces portLeaves.diff, ifaceName dif = "eth0" ∧ lydxGetOp dif ≠ .delete ∧
      bridgeOf (findCif (interfacesOf portLeaves.cfg) dif) = none := by decide +kernel
  have stays : ∀ dif ∈ ifaces portLeaves.diff, dropped dif (findCif (interfacesOf portLeaves.cfg) dif) = false := by
    decide +kernel
  have kept (x : String) : ¬Lost bridgeRunning portLeaves bridgedDevices.kinds x := by
    rintro ⟨_, ⟨dif, member, _, gone⟩, _⟩
    simp [stays dif member] at gone
  obtain ⟨dif, changed, name, alive, free⟩ := facts
  have ran : ∃ after, bridgedDevices.runScripts (linkScripts bridgeRunning portLeft ["eth0", "br0"] ["br0", "eth0"]) =
      some after := by
    rw [scripts]
    exact ⟨_, rfl⟩
  obtain ⟨after, ran⟩ := ran
  obtain ⟨d, found, master⟩ := masters_follow "/run/net" (by decide) (by decide) bridgeRunning commits portLeaves names turns
    portLeft accepted ["eth0", "br0"] ["br0", "eth0"] (by decide +kernel) bridgedDevices after ran dif changed alive
    (by simp [name])
  rw [name] at found master
  exact ⟨after, d, scripts, ran, found, (master "br0").mpr (.inr ⟨free, kept _, kept _, _, rfl, rfl⟩)⟩

end Netdag
