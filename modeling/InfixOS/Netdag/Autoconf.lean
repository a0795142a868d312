import InfixOS.Netdag.Membership

/-! Autoconfiguration over a transaction. The leaf in the container `autoconf` is
looked for in the diff among the siblings of the container, where it never stands, so
that only the leaf `enabled` of the family itself decides. -/
namespace Yang

section Order
variable {a b : String} {nodes old new : List Node}

theorem diffChildren_names (old new : List Node) : ((diffChildren old new).map Node.name).Sublist (old.map Node.name) := by
  induction old with
  | nil => simp [diffChildren]
  | cons o rest ih =>
    rw [diffChildren, List.map_append]
    have here : List.map Node.name (o :: rest) = [o.name] ++ rest.map Node.name := rfl
    rw [here]
    refine List.Sublist.append ?_ ih
    cases partner new o with
    | none => simp
    | some m =>
      cases differs : diffNode o m with
      | none => simp [differs]
      | some n => simp [differs, diffNode_name differs]

/-- From a node on, its siblings that come before it are not found. -/
theorem childOf_dropWhile (other : a ≠ b) (order : ¬[a, b].Sublist (nodes.map Node.name)) :
    childOf (nodes.dropWhile fun n => n.name ≠ a) b = none := by
  induction nodes with
  | nil => rfl
  | cons n rest ih =>
    by_cases here : n.name = a
    · rw [List.dropWhile_cons_of_neg (by simpa using here), childOf_eq_none, List.forall_mem_cons]
      refine ⟨fun named => other (here.symm.trans named), fun m later named => order ?_⟩
      rw [List.map_cons, here, List.cons_sublist_cons, List.singleton_sublist]
      exact named ▸ List.mem_map_of_mem later
    · rw [List.dropWhile_cons_of_pos (by simpa using here)]
      exact ih fun both => order (both.cons _)

/-- In a sorted body a node does not follow one that the schema has later. -/
theorem Body.order_names (body : Body required closed true sub nodes)
    (first : (sub.findIdx? fun entry => entry.1 = a) = some i) (second : (sub.findIdx? fun entry => entry.1 = b) = some j)
    (later : j < i) : ¬[a, b].Sublist (nodes.map Node.name) := by
  intro both
  have sorted := body.order rfl
  have indices : nodes.filterMap (fun n => sub.findIdx? fun entry => entry.1 = n.name) =
      (nodes.map Node.name).filterMap fun name => sub.findIdx? fun entry => entry.1 = name := by
    rw [List.filterMap_map]
    rfl
  rw [indices] at sorted
  have pair := sorted.sublist (both.filterMap _)
  simp only [List.filterMap_cons, first, second, List.filterMap_nil, List.pairwise_cons, List.mem_singleton,
    forall_eq] at pair
  exact absurd later pair.1.not_gt

/-- A difference has the order of the old nodes, and the new ones at the end. -/
theorem diffSiblings_order (order : ¬[a, b].Sublist (old.map Node.name))
    (kept : ∀ m ∈ new, m.name = b → partner old m ≠ none) :
    ¬[a, b].Sublist ((diffSiblings old new).map Node.name) := by
  intro both
  rw [diffSiblings, List.map_append, List.sublist_append_iff] at both
  obtain ⟨early, late, split, first, second⟩ := both
  have none : b ∉ late := by
    intro member
    obtain ⟨n, inside, named⟩ := List.mem_map.mp (second.subset member)
    obtain ⟨m, created, rfl⟩ := List.mem_map.mp inside
    obtain ⟨member, fresh⟩ := List.mem_filter.mp created
    exact kept m member (by simpa using named) (by simpa using fresh)
  have empty : late = [] := by
    by_contra nonempty
    have last := congrArg List.getLast? split
    rw [List.getLast?_append_of_ne_nil _ nonempty] at last
    exact none (List.mem_of_getLast? last.symm)
  rw [empty, List.append_nil] at split
  exact order (split ▸ first.trans (diffChildren_names old new))

end Order

end Yang

namespace Netdag
open Core Dagger Keyed Lyx Posix Yang

section Verdicts
variable {family : Family} {cif dif p : Ptr} {o m a c : List Node} {op op' : Option Operation} {unset : Bool}

/-- The leaf of the container `autoconf` is not among the siblings that follow it. -/
theorem FamilyBody.autoconf_order (body : FamilyBody family c) : ¬["autoconf", family.autoconf.1].Sublist (c.map Node.name) := by
  cases family with
  | ipv4 => exact body.order_names rfl rfl (by decide)
  | ipv6 =>
    intro both
    obtain ⟨n, member, named⟩ := List.mem_map.mp (both.subset (List.mem_cons_of_mem _ List.mem_cons_self))
    have never : n.conforms .never = true := body.each member (by rw [named]; rfl)
    simp [conforms_never] at never

theorem FamilyBody.autoconf_diff_order (body : FamilyBody family a) (body' : FamilyBody family c) :
    ¬["autoconf", family.autoconf.1].Sublist ((diffSiblings a c).map Node.name) := by
  refine diffSiblings_order body.autoconf_order fun n member named => ?_
  cases family with
  | ipv4 =>
    obtain ⟨_, _, found, _⟩ := body.required_leaf "enabled" rfl (by simp)
    have alone : Alone "enabled" c := body'.alone rfl rfl
    rw [(body.alone rfl rfl : Alone "enabled" a).partner_eq named (alone.unkeyed member named), found]
    simp
  | ipv6 =>
    have never : n.conforms .never = true := body'.each member (by rw [named]; rfl)
    simp [conforms_never] at never

/-- The leaf is looked for from the container on, not below it. -/
theorem autoconf_missed (below : lydChild p = ⟨c, op⟩)
    (order : ¬["autoconf", family.autoconf.1].Sublist (c.map Node.name)) :
    (lydxGetDescendant (lydxGetChild p "autoconf") [family.autoconf.1]).isNull = true := by
  have other : "autoconf" ≠ family.autoconf.1 := by cases family <;> decide
  have nodes : (lydxGetChild p "autoconf").nodes = c.dropWhile fun n => n.name ≠ "autoconf" := by
    rw [lydxGetChild, below]
    rfl
  rw [isNull_eq, lydxGetDescendant, getSibling_node, nodes, childOf_dropWhile other order]
  rfl

/-- A family that is configured to autoconfigure. -/
def autoconfigured (family : Family) (cif : Ptr) : Bool :=
  let node := lydxGetChild (lydxGetChild cif family.proto) "autoconf"
  !node.isNull && lydxIsEnabled node family.autoconf.1

/-- The leaf `enabled` alone decides. -/
theorem verdict_missed (missed : (lydxGetDescendant (lydxGetChild (lydxGetChild dif family.proto) "autoconf")
    [family.autoconf.1]).isNull = true) :
    autoconfVerdict family family.autoconf.1 unset cif dif =
      if familyEnabled family cif = false then some false
      else if lydxGetOp (lydxGetChild (lydxGetChild dif family.proto) "enabled") = .replace then
        some (autoconfigured family cif)
      else none := by
  simp only [autoconfVerdict, autoconfigured, missed, Bool.true_or, if_true, Bool.not_eq_eq_eq_not, Bool.not_true]

theorem verdict_created (is : lydChild cif = ⟨m, op⟩) (body : IfaceBody m) (below : lydChild dif = ⟨m, some .create⟩) :
    autoconfVerdict family family.autoconf.1 unset cif dif =
      if familyEnabled family cif = false then some false else none := by
  have under := getChild_below below family.proto
  cases found : childOf m family.proto with
  | none =>
    have off : familyEnabled family cif = false := by rw [familyEnabled_of is, familyOn, found]
    simp [autoconfVerdict, off]
  | some n =>
    obtain ⟨c, rfl, fine⟩ := body.family found
    rw [found] at under
    replace under : lydChild (lydxGetChild dif family.proto) = ⟨c, some .create⟩ := under
    have created : lydxGetOp (lydxGetChild (lydxGetChild dif family.proto) "enabled") ≠ .replace := by
      obtain ⟨value, flag, found', _⟩ := fine.required_leaf "enabled" rfl (by simp)
      rw [lydxGetOp, getChild_operation under, found']
      simp [Node.data, Meta.plain]
    rw [verdict_missed (autoconf_missed under fine.autoconf_order), if_neg created]

theorem verdict_changed (was : lydChild old = ⟨o, op⟩) (is : lydChild cif = ⟨m, op'⟩) (body : IfaceBody o)
    (body' : IfaceBody m) (below : lydChild dif = ⟨keyLeaves ["name"] o ++ diffSiblings o m, some .none⟩) :
    autoconfVerdict family family.autoconf.1 unset cif dif =
      if familyEnabled family cif = false then some false
      else if (lydxGetChild old family.proto).isNull = false ∧ familyEnabled family old = false then
        some (autoconfigured family cif)
      else none := by
  cases on : familyEnabled family cif with
  | false => simp [autoconfVerdict, on]
  | true =>
    have on' := on
    rw [familyEnabled_of is] at on'
    cases found : childOf m family.proto with
    | none => simp [familyOn, found] at on'
    | some n =>
      obtain ⟨c, rfl, fine'⟩ := body'.family found
      have true' : valueOf c "enabled" = some "true" := by
        rw [familyOn, found] at on'
        exact of_decide_eq_true on'
      rw [isNull_eq, (getChild_of was _).1, familyEnabled_of was, familyOn]
      cases was' : childOf o family.proto with
      | none =>
        have created : lydChild (lydxGetChild dif family.proto) = ⟨c, some .create⟩ := by
          rw [getChild_below below, childOf_changed family.proto_ne_name,
            childOf_diffSiblings (body.alone_family family) (body'.alone_family family), was', found]
          rfl
        have fresh : lydxGetOp (lydxGetChild (lydxGetChild dif family.proto) "enabled") ≠ .replace := by
          obtain ⟨value, flag, found', _⟩ := fine'.required_leaf "enabled" rfl (by simp)
          rw [lydxGetOp, getChild_operation created, found']
          simp [Node.data, Meta.plain]
        rw [verdict_missed (autoconf_missed created fine'.autoconf_order), on, if_neg fresh]
        rfl
      | some k =>
        obtain ⟨a, rfl, fine⟩ := body.family was'
        obtain ⟨op, diff⟩ := familyDiff_below body body' below was' found
        rw [verdict_missed (autoconf_missed diff (fine.autoconf_diff_order fine')), on,
          if_congr (enabled_replaced fine fine' diff) rfl rfl, true']
        by_cases before : valueOf a "enabled" = some "true"
        · simp [before, Node.children]
        · simp [before, Node.children]

/-- The family was there before and was off, and its interface is kept. -/
def Switched (family : Family) (old cif dif : Ptr) : Prop :=
  recreated dif cif = false ∧ (lydxGetChild old family.proto).isNull = false ∧ familyEnabled family old = false

instance : Decidable (Switched family old cif dif) := inferInstanceAs (Decidable (_ ∧ _))

/-- What is decided about an interface that is set up. -/
def setupVerdict (family : Family) (unset : Bool) (dif cif : Ptr) : Option Bool :=
  if recreated dif cif then autoconfVerdict family family.autoconf.1 unset (markCreated cif) (markCreated cif)
  else autoconfVerdict family family.autoconf.1 unset cif dif

theorem Delta.verdict (delta : Delta old cif dif) (alive : lydxGetOp dif ≠ .delete) (family : Family) (unset : Bool) :
    setupVerdict family unset dif cif =
      if familyEnabled family cif = false then some false
      else if Switched family old cif dif then some (autoconfigured family cif) else none := by
  unfold setupVerdict
  cases delta with
  | created was is body below =>
    have new : recreated dif cif = false := by simp [recreated, getOp_of below]
    have never : ¬Switched family old cif dif := by
      rintro ⟨_, there, _⟩
      have nothing : lydChild .null = ⟨[], none⟩ := rfl
      rw [was, isNull_eq, (getChild_of nothing _).1] at there
      simp [childOf] at there
    rw [new, if_neg (by simp), verdict_created is body below, if_neg never]
  | changed was is body body' below =>
    cases again : recreated dif cif with
    | false =>
      rw [if_neg (by simp), verdict_changed was is body body' below]
      simp [Switched, again]
    | true =>
      have present : cif.isNull = false := by
        rcases recreated_type again with vlan | veth
        · exact cattr_not_null vlan
        · exact cattr_not_null veth
      have marked := markCreated_below present is
      rw [if_pos rfl, verdict_created marked body' marked, familyEnabled_of marked, familyEnabled_of is]
      simp [Switched, again]
  | deleted was is body below => exact absurd (getOp_of below) alive

end Verdicts

section Modes
variable {base : String} {s : Running} {mid : Net} {change : Change} {devices bare : Devices} {dif cif : Ptr} {x : String}

def modeText (on : Bool) : String := if on then "eui64" else "none"

theorem setup_mode (fixed skip : Bool) (op : Operation) (dif cif : Ptr) :
    (setupPieces fixed skip op dif cif).filterMap modeSetting.gives =
      ((autoconfVerdict .ipv6 "create-global-addresses" true cif dif).map modeText).toList := by
  have port : (portPieces cif).filterMap modeSetting.gives = [] := by
    unfold portPieces
    split <;> rfl
  rw [setup_gives fun piece => by cases piece <;> simp [Piece.general, modeSetting], List.filterMap_append, port,
    List.append_nil, ipv6AutoconfPieces]
  split
  · rename_i verdict
    rw [verdict]
    rfl
  · rename_i verdict
    rw [verdict]
    rfl
  · rename_i verdict
    rw [verdict]
    rfl

/-- The script of an interface sets its mode as decided. -/
theorem init_mode (fixed skip : Bool) (dif cif : Ptr) : (initPieces fixed skip dif cif).filterMap modeSetting.gives =
    ((setupVerdict .ipv6 true dif cif).map modeText).toList := by
  unfold initPieces setupVerdict
  split
  · rw [setup_mode]
    rfl
  · rw [setup_mode]
    rfl

theorem Left.mode_eq (left : Left devices gone bare) (stays : ¬∃ y ∈ gone, Vanishes devices.kinds y x)
    (was : devices x = some d) : modeSetting.first (bare x) = d.addrgenmode := by
  have same := left.remaining.kept (w := x) (by simpa using stays)
  cases held : bare x with
  | none =>
    rw [Devices.kinds, held, Devices.kinds, was] at same
    simp at same
  | some e =>
    obtain ⟨d0, was', _, _, mode, _⟩ := left.old held
    obtain rfl : d = d0 := Option.some.inj (was.symm.trans was')
    exact mode

theorem Left.mode_lost (left : Left devices gone bare)
    (lost : devices x = none ∨ ∃ y ∈ gone, Vanishes devices.kinds y x) : modeSetting.first (bare x) = "eui64" := by
  have none : bare x = none := by
    rcases lost with missing | ⟨y, member, vanishes⟩
    · by_contra there
      obtain ⟨d, held⟩ := Option.ne_none_iff_exists'.mp there
      obtain ⟨d0, was, _⟩ := left.old held
      simp [missing] at was
    · exact Devices.kinds_eq_none.mp (left.remaining.lost member vanishes)
  rw [none]
  rfl

end Modes

/-- How the address generation mode `mode` of an interface comes about, which had the
device `before` if its link is kept. -/
inductive ModeOf (old cif dif : Ptr) (before : Option Device) : String → Prop
  | off (disabled : familyEnabled .ipv6 cif = false) : ModeOf old cif dif before "none"
  | switched (enabled : familyEnabled .ipv6 cif = true) (switched : Switched .ipv6 old cif dif) :
      ModeOf old cif dif before (modeText (autoconfigured .ipv6 cif))
  | kept (enabled : familyEnabled .ipv6 cif = true) (same : ¬Switched .ipv6 old cif dif) (there : before = some d) :
      ModeOf old cif dif before d.addrgenmode
  | fresh (enabled : familyEnabled .ipv6 cif = true) (same : ¬Switched .ipv6 old cif dif) (missing : before = none) :
      ModeOf old cif dif before "eui64"

open Classical in
/-- The address generation mode of a changed interface after the scripts of a
transaction. It follows the configuration where IPv6 is off and where it is switched
on in place. Otherwise it stays as it was, or as the kernel gives it to a new link,
whatever the leaf for autoconfiguration is. -/
theorem mode_follows (base : String) (nonempty : base ≠ "") (literal : Literal base) (s : Running)
    (commits : Commits base NamesPlain s) (change : Change) (names : NamesPlain s change) (turns : Turns s.cfg change)
    (mid : Net) (accepted : ifchange base change s.net = (.ok, mid)) (down up : List String)
    (all : ∀ cif ∈ ifaces s.cfg, ifaceName cif ∈ down) (devices after : Devices)
    (ran : devices.runScripts (linkScripts s mid down up) = some after) (dif : Ptr) (changed : dif ∈ ifaces change.diff)
    (alive : lydxGetOp dif ≠ .delete) (listed : ifaceName dif ∈ up) :
    ∃ d, after (ifaceName dif) = some d ∧
      ModeOf (findCif (interfacesOf s.cfg) dif) (findCif (interfacesOf change.cfg) dif) dif
        (if Lost s change devices.kinds (ifaceName dif) then none else devices (ifaceName dif)) d.addrgenmode := by
  have steady := commits.steady nonempty literal fun _ _ plain => plain
  obtain ⟨plan, u, filled⟩ := steady.accepted names accepted
  obtain ⟨gone, bare, left, which, ran⟩ := filled.runs steady names turns.differs all ran
  obtain ⟨skip, script⟩ := filled.own_init names turns changed alive
  have lost : Lost s change devices.kinds (ifaceName dif) ↔ ∃ y ∈ gone, Vanishes devices.kinds y (ifaceName dif) := by
    simp only [Lost, which, and_assoc]
  have gives := init_mode (isFixed s.net.kernel (ifaceName dif)) skip dif (findCif (interfacesOf change.cfg) dif)
  rw [← script] at gives
  have once : ((mid.initScript (ifaceName dif)).filterMap modeSetting.gives).length ≤ 1 := by
    rw [gives]
    cases setupVerdict .ipv6 true dif (findCif (interfacesOf change.cfg) dif) <;> simp
  obtain ⟨d, found, mode⟩ := modeSetting.after_scripts (fun v _ => filled.init_scripts names turns.unique v) listed
    once (by rw [script]; exact init_down _ _ (findCif_name _ _)) ran
  refine ⟨d, found, ?_⟩
  rw [gives, (turns.delta changed).verdict alive] at mode
  cases enabled : familyEnabled .ipv6 (findCif (interfacesOf change.cfg) dif) with
  | false =>
    rw [if_pos enabled] at mode
    rw [show d.addrgenmode = _ from mode]
    exact .off enabled
  | true =>
    rw [enabled, if_neg (by simp)] at mode
    by_cases switched : Switched .ipv6 (findCif (interfacesOf s.cfg) dif) (findCif (interfacesOf change.cfg) dif) dif
    · rw [if_pos switched] at mode
      rw [show d.addrgenmode = _ from mode]
      exact .switched enabled switched
    · rw [if_neg switched] at mode
      rw [show d.addrgenmode = modeSetting.first (bare (ifaceName dif)) from mode]
      by_cases goes : Lost s change devices.kinds (ifaceName dif)
      · rw [if_pos goes, left.mode_lost (.inr (lost.mp goes))]
        exact .fresh enabled switched rfl
      · rw [if_neg goes]
        cases was : devices (ifaceName dif) with
        | none =>
          rw [left.mode_lost (.inl was)]
          exact .fresh enabled switched rfl
        | some d0 =>
          rw [left.mode_eq (mt lost.mpr goes) was]
          exact .kept enabled switched rfl

/-- A port with both families on, and with their leaves for autoconfiguration. -/
def autoPort (service addresses : String) : List Node :=
  let family (proto leaf value : String) : Node := .inner proto [] .plain
    [.leaf "enabled" "true" true .plain, .leaf "forwarding" "false" true .plain,
      .inner "autoconf" [] .plain [.leaf leaf value false .plain]]
  interfaces [ifaceEntry "eth0" ethernetType
    [family "ipv4" "enabled" service, family "ipv6" "create-global-addresses" addresses]]

def autoRunning : Running := (Running.boot twoPorts).to (autoPort "false" "true") (linked [("eth0", .ether)])

/-- The CHANGE of the two leaves alone. -/
def autoChange : Change := changeTo autoRunning.cfg (autoPort "true" "false")

def autoChanged : Net := (ifchange "/run/net" autoChange autoRunning.net).2

def portDevice : Devices
  | "eth0" => some (.new .ether)
  | _ => none

theorem autoRunning_goes : (Running.boot twoPorts).Goes autoRunning.cfg := by decide +kernel

theorem autoRunning_plain : NamesIn Plain (changeTo [] autoRunning.cfg).cfg (changeTo [] autoRunning.cfg).diff := by
  decide +kernel

theorem autoRunning_commits : Commits "/run/net" NamesPlain autoRunning :=
  (Commits.boot _).to _ _ autoRunning_goes autoRunning_plain

theorem autoRunning_lists (v : String) : v ∈ ["eth0"] ↔ autoRunning.net.Lists v := by
  have own : (ifaces (changeTo [] autoRunning.cfg).cfg).map ifaceName = ["eth0"] := by decide +kernel
  have changed : (ifaces (changeTo [] autoRunning.cfg).diff).map ifaceName = ["eth0"] := by decide +kernel
  refine Iff.trans ?_ ((autoRunning_goes.commit _).lists_iff (.boot _) (by decide) (by decide) autoRunning_plain v).symm
  exact (own ▸ changed ▸ (or_self_iff (a := v ∈ ["eth0"])).symm)

theorem autoChange_accepted : ifchange "/run/net" autoChange autoRunning.net = (.ok, autoChanged) := by
  have ok : (ifchange "/run/net" autoChange autoRunning.net).1 = .ok := by decide +kernel
  rw [autoChanged, ← ok]

theorem autoChange_turns : Turns autoRunning.cfg autoChange := ⟨by decide +kernel, by decide +kernel, rfl⟩

/-- The mode stays although the leaf is now false. -/
theorem mode_follows_unheeded : ∃ after d,
    portDevice.runScripts (linkScripts autoRunning autoChanged ["eth0"] ["eth0"]) = some after ∧
    after "eth0" = some d ∧ d.addrgenmode = "eui64" ∧
    ∀ cif ∈ ifaces autoChange.cfg, autoconfigured .ipv6 cif = false := by
  have names : NamesIn Plain autoChange.cfg autoChange.diff := by decide +kernel
  have scripts : linkScripts autoRunning autoChanged ["eth0"] ["eth0"] =
      [[], [.linkSetDown "eth0", .newline, .linkSetUp "eth0"]] := by decide +kernel
  have facts : ∃ dif ∈ ifaces autoChange.diff, ifaceName dif = "eth0" ∧ lydxGetOp dif ≠ .delete ∧
      dropped dif (findCif (interfacesOf autoChange.cfg) dif) = false ∧
      familyEnabled .ipv6 (findCif (interfacesOf autoChange.cfg) dif) = true ∧
      familyEnabled .ipv6 (findCif (interfacesOf autoRunning.cfg) dif) = true := by decide +kernel
  have only : ∀ dif ∈ ifaces autoChange.diff, dropped dif (findCif (interfacesOf autoChange.cfg) dif) = false := by
    decide +kernel
  obtain ⟨dif, changed, name, alive, kept, on, was⟩ := facts
  have ran : ∃ after, portDevice.runScripts (linkScripts autoRunning autoChanged ["eth0"] ["eth0"]) = some after := by
    rw [scripts]
    exact ⟨_, rfl⟩
  obtain ⟨after, ran⟩ := ran
  obtain ⟨d, found, mode⟩ := mode_follows "/run/net" (by decide) (by decide) autoRunning autoRunning_commits autoChange names
    autoChange_turns autoChanged autoChange_accepted ["eth0"] ["eth0"] (by decide +kernel) portDevice after ran dif changed
    alive (by simp [name])
  have stays : ¬Lost autoRunning autoChange portDevice.kinds (ifaceName dif) := by
    rintro ⟨_, ⟨dif', member, _, gone⟩, _⟩
    simp [only dif' member] at gone
  rw [if_neg stays, name] at mode
  rw [name] at found
  refine ⟨after, d, ran, found, ?_, by decide +kernel⟩
  generalize result : d.addrgenmode = final at mode
  cases mode with
  | off disabled => simp [on] at disabled
  | switched _ switched => simp [Switched, was] at switched
  | kept _ _ there => exact congrArg Device.addrgenmode (Option.some.inj there).symm
  | fresh => rfl

/-- The service that a line enables or disables. -/
def Piece.service (x : String) : Piece → Option Bool
  | .zeroconfEnable y => if y = x then some true else none
  | .zeroconfDisable y => if y = x then some false else none
  | _ => none

/-- Whether `zeroconf@x` is enabled after some lines, if it was before. -/
def serviceAfter (x : String) (enabled : Bool) (lines : List Piece) : Bool :=
  lines.foldl (fun enabled piece => (piece.service x).getD enabled) enabled

/-- The scripts for services of a transaction in the order they are run. -/
def serviceLines (s : Running) (mid : Net) (down up : List String) : List Piece :=
  (if 0 < s.net.generations then down.flatMap fun v =>
    scriptPieces mid.world.tree (scriptOf s.net.generations .exit v (40, "zeroconf-down.sh")) else []) ++
  up.flatMap fun v => scriptPieces mid.world.tree (scriptOf s.net.generations .init v (60, "zeroconf-up.sh"))

section Services
variable {x : String} {enabled : Bool} {lines : List Piece} {dif cif : Ptr} {d : Handle}

theorem serviceAfter_same (same : ∀ piece ∈ lines, ∀ b ∈ piece.service x, b = enabled) :
    serviceAfter x enabled lines = enabled := by
  induction lines with
  | nil => rfl
  | cons piece rest ih =>
    obtain ⟨here, later⟩ := List.forall_mem_cons.mp same
    have value : (piece.service x).getD enabled = enabled := by
      cases said : piece.service x with
      | none => rfl
      | some b => exact here b said
    rw [serviceAfter, List.foldl_cons, value]
    exact ih later

/-- Lines that agree on a service set it. -/
theorem serviceAfter_set (same : ∀ piece ∈ lines, ∀ b' ∈ piece.service x, b' = b) (member : piece ∈ lines)
    (sets : piece.service x = some b) (enabled : Bool) : serviceAfter x enabled lines = b := by
  obtain ⟨before, rest, rfl⟩ := List.append_of_mem member
  rw [serviceAfter, List.foldl_append, List.foldl_cons, sets, Option.getD_some]
  exact serviceAfter_same fun piece inside => same piece (List.mem_append_right _ (List.mem_cons_of_mem _ inside))

/-- A script that is not for services. -/
def Linkish (script : Nat × String) : Prop := script ≠ (40, "zeroconf-down.sh") ∧ script ≠ (60, "zeroconf-up.sh")

/-- A request that is not about a script for services. -/
def Act.Linkish (act : Act) : Prop := ∀ side v script, act.file = some (side, v, script) → Netdag.Linkish script

theorem linkish_file {act : Act} (file : act.file = some (side, v, script)) (other : Linkish script) : act.Linkish := by
  intro side' v' script' file'
  obtain ⟨_, _, rfl⟩ : side = side' ∧ v = v' ∧ script = script' := by simpa [file] using file'
  exact other

theorem linkish_bare {act : Act} (bare : act.file = none) : act.Linkish := by
  intro side v script file
  simp [bare] at file

theorem linkish_lines (ifname : String) (pieces : List Piece) : ∀ act ∈ ipLines ifname pieces, act.Linkish := by
  intro act member
  obtain ⟨piece, _, rfl⟩ := List.mem_map.mp member
  exact linkish_file rfl ⟨by decide, by decide⟩

theorem linkish_vlan (dif cif : Ptr) : ∀ act ∈ vlanActs dif cif, act.Linkish := by
  intro act member
  rcases List.mem_cons.mp member with rfl | later
  · exact linkish_bare rfl
  · exact linkish_lines _ _ act (List.mem_ite_nil_right.mp later).2

theorem linkish_add (skip : Bool) (cif : Ptr) : ∀ act ∈ afspecAddActs skip cif, act.Linkish := by
  intro act member
  unfold afspecAddActs at member
  split at member
  · exact linkish_lines _ _ act member
  split at member
  · rcases List.mem_cons.mp member with rfl | later
    · exact linkish_bare rfl
    · split at later
      · exact linkish_bare (List.mem_singleton.mp later ▸ rfl)
      · rcases List.mem_cons.mp later with rfl | line
        · exact linkish_bare rfl
        · exact linkish_lines _ _ act line
  split at member
  · exact linkish_vlan _ _ act member
  · simp at member

theorem linkish_set (dif cif : Ptr) : ∀ act ∈ afspecSetActs dif cif, act.Linkish := by
  intro act member
  unfold afspecSetActs at member
  split at member
  · exact linkish_lines _ _ act member
  split at member
  · exact linkish_vlan _ _ act member
  · simp at member

theorem linkish_port (cif : Ptr) : ∀ act ∈ bridgeActs cif, act.Linkish := by
  intro act member
  rcases List.mem_append.mp (List.mem_ite_nil_right.mp member).2 with line | dep
  · exact linkish_lines _ _ act line
  · exact linkish_bare (List.mem_singleton.mp dep ▸ rfl)

theorem linkish_forwarding (ifname : String) (node : Ptr) (family : String) :
    ∀ act ∈ forwardingActs ifname node family, act.Linkish := by
  intro act member
  unfold forwardingActs at member
  simp only at member
  split at member
  · simp at member
  · obtain rfl := List.mem_singleton.mp member
    exact linkish_file rfl ⟨by decide, by decide⟩

theorem linkish_sysctl (dif : Ptr) : ∀ act ∈ sysctlActs dif, act.Linkish := by
  intro act member
  unfold sysctlActs at member
  simp only at member
  split at member
  · simp at member
  · rcases List.mem_cons.mp member with rfl | later
    · exact linkish_file rfl ⟨by decide, by decide⟩
    · rcases List.mem_append.mp later with four | six
      · exact linkish_forwarding _ _ _ act four
      · exact linkish_forwarding _ _ _ act six

theorem linkish_del (ifname : String) (fixed : Bool) : ∀ act ∈ delActs ifname fixed, act.Linkish := by
  intro act member
  rcases List.mem_cons.mp member with rfl | later
  · exact linkish_file rfl ⟨by decide, by decide⟩
  · obtain ⟨piece, _, rfl⟩ := List.mem_map.mp later
    exact linkish_file rfl ⟨by decide, by decide⟩

/-- The scripts for services are written by the part about autoconfiguration. -/
theorem setup_parts (d : Handle) (fixed skip : Bool) (op : Operation) (dif cif : Ptr) :
    ∃ early late, setupActs d fixed skip op dif cif = early ++ ipv4AutoconfActs d cif dif ++ late ∧
      (∀ act ∈ early, act.Linkish) ∧ ∀ act ∈ late, act.Linkish := by
  refine ⟨.fopen .init (ifaceName dif) (50, "init.ip") ::
      ((if !fixed && op = .create then afspecAddActs skip cif else []) ++ ipLines (ifaceName dif) [.linkSetDown (ifaceName dif)]),
    ipLines (ifaceName dif) (ipv6AutoconfPieces cif dif) ++ (bridgeActs cif ++ (ipLines (ifaceName dif) [.newline] ++
      ((if !fixed && op ≠ .create then afspecSetActs dif cif else []) ++
      (ipLines (ifaceName dif) (addressPieces .ipv4 cif dif ++ addressPieces .ipv6 cif dif) ++ adminActs dif cif)))),
    by simp [setupActs, linkActs], ?_, ?_⟩
  · rw [List.forall_mem_cons, List.forall_mem_append]
    exact ⟨linkish_file rfl ⟨by decide, by decide⟩,
      fun act member => linkish_add skip cif act (List.mem_ite_nil_right.mp member).2, linkish_lines _ _⟩
  · simp only [List.forall_mem_append, adminActs]
    exact ⟨linkish_lines _ _, linkish_port cif, linkish_lines _ _,
      fun act member => linkish_set dif cif act (List.mem_ite_nil_right.mp member).2, linkish_lines _ _,
      fun act member => linkish_lines _ _ act (List.mem_ite_nil_right.mp member).2, linkish_sysctl dif⟩

theorem content_setup_service (service : ¬Linkish script) (linkish : ∀ act ∈ before, Act.Linkish act)
    (fixed skip : Bool) (op : Operation) (dif cif : Ptr) :
    content side v script (before ++ setupActs d fixed skip op dif cif) =
      content side v script (ipv4AutoconfActs d cif dif) := by
  have silent {acts : List Act} (linkish : ∀ act ∈ acts, act.Linkish) :
      ∀ act ∈ acts, act.file ≠ some (side, v, script) :=
    fun act member file => service (linkish act member side v script file)
  obtain ⟨early, late, parts, first, last⟩ := setup_parts d fixed skip op dif cif
  rw [parts, content, List.foldl_append, List.foldl_append, List.foldl_append, followed_silent (silent last),
    followed_silent (silent linkish), followed_silent (silent first)]
  rfl

/-- What is printed about the service of an interface that is set up. -/
theorem content_iface_service (service : ¬Linkish script) (alive : lydxGetOp dif ≠ .delete) (fixed skip : Bool)
    (cif : Ptr) : content side v script (ifaceActs d fixed skip dif cif) =
      content side v script (if recreated dif cif then ipv4AutoconfActs d (markCreated cif) (markCreated cif)
        else ipv4AutoconfActs d cif dif) := by
  rw [ifaceActs, if_neg alive]
  split
  · exact content_setup_service service (linkish_del _ fixed) fixed skip .create _ _
  · exact content_setup_service service (by simp : ∀ act ∈ ([] : List Act), act.Linkish) fixed skip _ _ _

/-- An interface that is deleted keeps its service. -/
theorem content_deleted_service (service : ¬Linkish script) (gone : lydxGetOp dif = .delete) (fixed skip : Bool)
    (cif : Ptr) : content side v script (ifaceActs d fixed skip dif cif) = none := by
  rw [ifaceActs, if_pos gone]
  exact followed_silent (fun act member file => service (linkish_del _ fixed act member side v script file)) none

theorem content_down (d : Handle) (positive : 0 ≤ d.current) (cif dif : Ptr) :
    content .exit (ifaceName dif) (40, "zeroconf-down.sh") (ipv4AutoconfActs d cif dif) =
      if autoconfVerdict .ipv4 "enabled" false cif dif = some false then some [.zeroconfDisable (ifaceName dif)]
      else none := by
  unfold ipv4AutoconfActs
  simp only
  split
  · rename_i verdict
    simp [verdict, content]
  · rename_i verdict
    simp [verdict, content, followed]
  · rename_i verdict
    rw [if_neg positive.not_gt, verdict]
    simp [content, followed, reloadActs]

theorem content_up (d : Handle) (cif dif : Ptr) :
    content .init (ifaceName dif) (60, "zeroconf-up.sh") (ipv4AutoconfActs d cif dif) =
      if autoconfVerdict .ipv4 "enabled" false cif dif = some true then some [.zeroconfEnable (ifaceName dif)]
      else none := by
  unfold ipv4AutoconfActs
  simp only
  split
  · rename_i verdict
    simp [verdict, content]
  · rename_i verdict
    simp [verdict, content, followed]
  · rename_i verdict
    split
    · simp [verdict, content]
    · simp [verdict, content, followed, reloadActs]

/-- The two scripts of an interface that is set up. -/
theorem content_services (alive : lydxGetOp dif ≠ .delete) (fixed skip : Bool)
    (named : cif.isNull = false → ifaceName cif = ifaceName dif) :
    (0 ≤ d.current → content .exit (ifaceName dif) (40, "zeroconf-down.sh") (ifaceActs d fixed skip dif cif) =
      if setupVerdict .ipv4 false dif cif = some false then some [.zeroconfDisable (ifaceName dif)] else none) ∧
    content .init (ifaceName dif) (60, "zeroconf-up.sh") (ifaceActs d fixed skip dif cif) =
      if setupVerdict .ipv4 false dif cif = some true then some [.zeroconfEnable (ifaceName dif)] else none := by
  rw [content_iface_service (by simp [Linkish]) alive, content_iface_service (by simp [Linkish]) alive, setupVerdict]
  cases again : recreated dif cif with
  | false => exact ⟨fun positive => content_down d positive cif dif, content_up d cif dif⟩
  | true =>
    rw [← recreated_name again named]
    exact ⟨fun positive => content_down d positive _ _, content_up d _ _⟩

variable {base : String} {s : Running} {mid : Net} {change : Change} {plan : Plan} {u : Base Piece} {down up : List String}

theorem Accepted.down_script (accepted : Accepted base s.net change plan u mid)
    (names : NamesIn Plain change.cfg change.diff) (turns : Turns s.cfg change) (positive : 0 < s.net.generations)
    (member : dif ∈ ifaces change.diff) :
    scriptPieces mid.world.tree (scriptOf s.net.generations .exit (ifaceName dif) (40, "zeroconf-down.sh")) =
      if lydxGetOp dif ≠ .delete ∧ setupVerdict .ipv4 false dif (findCif (interfacesOf change.cfg) dif) = some false then
        [.zeroconfDisable (ifaceName dif)] else [] := by
  have made := accepted.generated
  have current : 0 ≤ mid.world.handle.current := by
    rw [made.ready.opened.current]
    omega
  rw [← made.all] at member
  obtain ⟨step, planned, rfl⟩ := List.mem_map.mp member
  rw [made.script_pieces (by decide) (accepted.fresh (by simp only [sideGen]; omega)),
    content_planned names (by decide) (made.names ▸ turns.unique) planned, stepActs]
  by_cases gone : lydxGetOp step.1 = .delete
  · rw [content_deleted_service (by simp [Linkish]) gone, if_neg fun both => both.1 gone]
    rfl
  · rw [(content_services gone _ _ (findCif_name _ _)).1 current]
    by_cases off : setupVerdict .ipv4 false step.1 (findCif (interfacesOf change.cfg) step.1) = some false
    · rw [if_pos off, if_pos ⟨gone, off⟩]
      rfl
    · rw [if_neg off, if_neg fun both => off both.2]
      rfl

theorem Accepted.up_script (accepted : Accepted base s.net change plan u mid)
    (names : NamesIn Plain change.cfg change.diff) (turns : Turns s.cfg change) (member : dif ∈ ifaces change.diff) :
    scriptPieces mid.world.tree (scriptOf s.net.generations .init (ifaceName dif) (60, "zeroconf-up.sh")) =
      if lydxGetOp dif ≠ .delete ∧ setupVerdict .ipv4 false dif (findCif (interfacesOf change.cfg) dif) = some true then
        [.zeroconfEnable (ifaceName dif)] else [] := by
  have made := accepted.generated
  rw [← made.all] at member
  obtain ⟨step, planned, rfl⟩ := List.mem_map.mp member
  rw [made.script_pieces (by decide) (accepted.fresh (by simp [sideGen])),
    content_planned names (by decide) (made.names ▸ turns.unique) planned, stepActs]
  by_cases gone : lydxGetOp step.1 = .delete
  · rw [content_deleted_service (by simp [Linkish]) gone, if_neg fun both => both.1 gone]
    rfl
  · rw [(content_services gone _ _ (findCif_name _ _)).2]
    by_cases on : setupVerdict .ipv4 false step.1 (findCif (interfacesOf change.cfg) step.1) = some true
    · rw [if_pos on, if_pos ⟨gone, on⟩]
      rfl
    · rw [if_neg on, if_neg fun both => on both.2]
      rfl

theorem Accepted.unplanned_script (accepted : Accepted base s.net change plan u mid)
    (names : NamesIn Plain change.cfg change.diff) (small : script.1 ≤ 99) (other : script ≠ (90, "reload.sh"))
    (there : 0 ≤ sideGen s.net.generations side) (unlisted : v ∉ (ifaces change.diff).map ifaceName) :
    scriptPieces mid.world.tree (scriptOf s.net.generations side v script) = [] := by
  have made := accepted.generated
  rw [made.script_pieces small (accepted.fresh there), content_unplanned names other (by rwa [made.names])]
  rfl

/-- The lines for services that a transaction runs. -/
theorem Accepted.mem_serviceLines (accepted : Accepted base s.net change plan u mid)
    (names : NamesIn Plain change.cfg change.diff) (turns : Turns s.cfg change) {piece : Piece} :
    piece ∈ serviceLines s mid down up ↔ ∃ dif ∈ ifaces change.diff, lydxGetOp dif ≠ .delete ∧
      (setupVerdict .ipv4 false dif (findCif (interfacesOf change.cfg) dif) = some false ∧ 0 < s.net.generations ∧
        ifaceName dif ∈ down ∧ piece = .zeroconfDisable (ifaceName dif) ∨
      setupVerdict .ipv4 false dif (findCif (interfacesOf change.cfg) dif) = some true ∧
        ifaceName dif ∈ up ∧ piece = .zeroconfEnable (ifaceName dif)) := by
  rw [serviceLines, List.mem_append, List.mem_ite_nil_right, List.mem_flatMap, List.mem_flatMap]
  constructor
  · rintro (⟨positive, v, listed, line⟩ | ⟨v, listed, line⟩)
    · by_cases planned : v ∈ (ifaces change.diff).map ifaceName
      · obtain ⟨dif, member, rfl⟩ := List.mem_map.mp planned
        rw [accepted.down_script names turns positive member, List.mem_ite_nil_right, List.mem_singleton] at line
        obtain ⟨⟨alive, off⟩, rfl⟩ := line
        exact ⟨dif, member, alive, .inl ⟨off, positive, listed, rfl⟩⟩
      · rw [accepted.unplanned_script names (by decide) (by decide) (by simp only [sideGen]; omega) planned] at line
        simp at line
    · by_cases planned : v ∈ (ifaces change.diff).map ifaceName
      · obtain ⟨dif, member, rfl⟩ := List.mem_map.mp planned
        rw [accepted.up_script names turns member, List.mem_ite_nil_right, List.mem_singleton] at line
        obtain ⟨⟨alive, on⟩, rfl⟩ := line
        exact ⟨dif, member, alive, .inr ⟨on, listed, rfl⟩⟩
      · rw [accepted.unplanned_script names (by decide) (by decide) (by simp [sideGen]) planned] at line
        simp at line
  · rintro ⟨dif, member, alive, ⟨off, positive, listed, rfl⟩ | ⟨on, listed, rfl⟩⟩
    · exact .inl ⟨positive, _, listed, by simp [accepted.down_script names turns positive member, alive, off]⟩
    · exact .inr ⟨_, listed, by simp [accepted.up_script names turns member, alive, on]⟩

/-- All lines about the service of an interface say what has been decided. -/
theorem Accepted.service_lines (accepted : Accepted base s.net change plan u mid)
    (names : NamesIn Plain change.cfg change.diff) (turns : Turns s.cfg change) (changed : dif ∈ ifaces change.diff)
    {piece : Piece} (member : piece ∈ serviceLines s mid down up) (sets : b ∈ piece.service (ifaceName dif)) :
    lydxGetOp dif ≠ .delete ∧ setupVerdict .ipv4 false dif (findCif (interfacesOf change.cfg) dif) = some b ∧
      (b = false → ifaceName dif ∈ down) := by
  obtain ⟨dif', changed', alive, ⟨off, _, listed, rfl⟩ | ⟨on, listed, rfl⟩⟩ := (accepted.mem_serviceLines names turns).mp member
  · obtain ⟨same, rfl⟩ : ifaceName dif' = ifaceName dif ∧ false = b := by
      simpa [Piece.service, Option.ite_none_right_eq_some] using sets
    obtain rfl := List.inj_on_of_nodup_map turns.unique changed' changed same
    exact ⟨alive, off, fun _ => listed⟩
  · obtain ⟨same, rfl⟩ : ifaceName dif' = ifaceName dif ∧ true = b := by
      simpa [Piece.service, Option.ite_none_right_eq_some] using sets
    obtain rfl := List.inj_on_of_nodup_map turns.unique changed' changed same
    exact ⟨alive, on, by simp⟩

/-- The line for an interface that is set up is run if there is a node for it, and no
other line is about its service. -/
theorem Accepted.service_set (accepted : Accepted base s.net change plan u mid)
    (names : NamesIn Plain change.cfg change.diff) (turns : Turns s.cfg change) (changed : dif ∈ ifaces change.diff)
    (alive : lydxGetOp dif ≠ .delete)
    (verdict : setupVerdict .ipv4 false dif (findCif (interfacesOf change.cfg) dif) = some b)
    (run : if b then ifaceName dif ∈ up else 0 < s.net.generations ∧ ifaceName dif ∈ down) (enabled : Bool) :
    serviceAfter (ifaceName dif) enabled (serviceLines s mid down up) = b := by
  have agree : ∀ piece ∈ serviceLines s mid down up, ∀ b' ∈ piece.service (ifaceName dif), b' = b := by
    intro piece member b' sets
    exact Option.some.inj ((accepted.service_lines names turns changed member sets).2.1.symm.trans verdict)
  cases b with
  | false =>
    have line : .zeroconfDisable (ifaceName dif) ∈ serviceLines s mid down up :=
      (accepted.mem_serviceLines names turns).mpr ⟨dif, changed, alive, .inl ⟨verdict, run.1, run.2, rfl⟩⟩
    exact serviceAfter_set agree line (by simp [Piece.service]) enabled
  | true =>
    have line : .zeroconfEnable (ifaceName dif) ∈ serviceLines s mid down up :=
      (accepted.mem_serviceLines names turns).mpr ⟨dif, changed, alive, .inr ⟨verdict, run, rfl⟩⟩
    exact serviceAfter_set agree line (by simp [Piece.service]) enabled

/-- Without a line that is run nothing happens to the service. -/
theorem Accepted.service_unset (accepted : Accepted base s.net change plan u mid)
    (names : NamesIn Plain change.cfg change.diff) (turns : Turns s.cfg change) (changed : dif ∈ ifaces change.diff)
    (silent : setupVerdict .ipv4 false dif (findCif (interfacesOf change.cfg) dif) = none ∨
      setupVerdict .ipv4 false dif (findCif (interfacesOf change.cfg) dif) = some false ∧ ifaceName dif ∉ down)
    (enabled : Bool) : serviceAfter (ifaceName dif) enabled (serviceLines s mid down up) = enabled := by
  refine serviceAfter_same fun piece member b sets => ?_
  obtain ⟨_, verdict, run⟩ := accepted.service_lines names turns changed member sets
  rcases silent with none | ⟨off, unlisted⟩
  · simp [verdict] at none
  · obtain rfl : b = false := Option.some.inj (verdict.symm.trans off)
    exact absurd (run rfl) unlisted

/-- So it is for an interface that is deleted or not in the diff. -/
theorem Accepted.service_gone (accepted : Accepted base s.net change plan u mid)
    (names : NamesIn Plain change.cfg change.diff) (turns : Turns s.cfg change)
    (gone : ∀ dif ∈ ifaces change.diff, ifaceName dif = x → lydxGetOp dif = .delete) (enabled : Bool) :
    serviceAfter x enabled (serviceLines s mid down up) = enabled := by
  refine serviceAfter_same fun piece member b sets => ?_
  obtain ⟨dif, changed, alive, line⟩ := (accepted.mem_serviceLines names turns).mp member
  have name : ifaceName dif = x := by
    rcases line with ⟨_, _, _, rfl⟩ | ⟨_, _, rfl⟩
    · exact (by simpa [Piece.service, Option.ite_none_right_eq_some] using sets : _ ∧ _).1
    · exact (by simpa [Piece.service, Option.ite_none_right_eq_some] using sets : _ ∧ _).1
  exact absurd (gone dif changed name) alive

/-- A family that was there belongs to an interface that was there. -/
theorem Turns.switched_old (turns : Turns s.cfg change) (changed : dif ∈ ifaces change.diff)
    (switched : Switched .ipv4 (findCif (interfacesOf s.cfg) dif) (findCif (interfacesOf change.cfg) dif) dif) :
    lydxGetOp dif ≠ .create := by
  intro created
  cases turns.delta changed with
  | created was _ _ _ =>
    have there := switched.2.1
    have nothing : lydChild .null = ⟨[], none⟩ := rfl
    rw [was, isNull_eq, (getChild_of nothing _).1] at there
    simp [childOf] at there
  | changed _ _ _ _ below => simp [getOp_of below] at created
  | deleted _ _ _ below => simp [getOp_of below] at created

end Services

/-- The zeroconf service of an interface after the scripts of a transaction. It is
disabled where IPv4 is off on an interface that the generation before lists: one that was
there, or that the transaction before deleted. It is set as configured where IPv4 is
switched on in place. Otherwise it stays as it was: so does that of an interface that
nobody lists, that is deleted or that is created again. -/
theorem zeroconf_follows (base : String) (nonempty : base ≠ "") (literal : Literal base) (s : Running)
    (commits : Commits base NamesPlain s) (change : Change) (names : NamesPlain s change) (turns : Turns s.cfg change)
    (mid : Net) (accepted : ifchange base change s.net = (.ok, mid)) (down up : List String)
    (nodes : ∀ v, v ∈ down ↔ s.net.Lists v) (all : ∀ cif ∈ ifaces change.cfg, ifaceName cif ∈ up) :
    (∀ dif ∈ ifaces change.diff, lydxGetOp dif ≠ .delete → ∀ enabled,
      serviceAfter (ifaceName dif) enabled (serviceLines s mid down up) =
        if familyEnabled .ipv4 (findCif (interfacesOf change.cfg) dif) = false then
          enabled && !decide (s.net.Lists (ifaceName dif))
        else if Switched .ipv4 (findCif (interfacesOf s.cfg) dif) (findCif (interfacesOf change.cfg) dif) dif then
          autoconfigured .ipv4 (findCif (interfacesOf change.cfg) dif)
        else enabled) ∧
    (∀ x, (∀ dif ∈ ifaces change.diff, ifaceName dif = x → lydxGetOp dif = .delete) → ∀ enabled,
      serviceAfter x enabled (serviceLines s mid down up) = enabled) ∧
    (∀ cif ∈ ifaces s.cfg, s.net.Lists (ifaceName cif)) ∧
    ∀ r last, Commits base NamesPlain r → NamesPlain r last → Commit base r last s →
      ∀ x, s.net.Lists x ↔ x ∈ (ifaces s.cfg).map ifaceName ∨ x ∈ (ifaces last.diff).map ifaceName := by
  have steady := commits.steady nonempty literal fun _ _ plain => plain
  obtain ⟨plan, u, filled⟩ := steady.accepted names accepted
  refine ⟨?_, fun x gone => filled.service_gone names turns gone, fun cif member => steady.nodes member, ?_⟩
  · intro dif changed alive enabled
    have verdict := (turns.delta changed).verdict alive .ipv4 false
    have disabled (off : setupVerdict .ipv4 false dif (findCif (interfacesOf change.cfg) dif) = some false)
        (listed : s.net.Lists (ifaceName dif)) :
        serviceAfter (ifaceName dif) enabled (serviceLines s mid down up) = false :=
      filled.service_set names turns changed alive off ⟨listed.1, (nodes _).mpr listed⟩ enabled
    cases on : familyEnabled .ipv4 (findCif (interfacesOf change.cfg) dif) with
    | false =>
      rw [if_pos on] at verdict
      by_cases listed : s.net.Lists (ifaceName dif)
      · rw [if_pos rfl, disabled verdict listed, decide_eq_true listed, Bool.not_true, Bool.and_false]
      · rw [if_pos rfl, decide_eq_false listed, Bool.not_false, Bool.and_true]
        exact filled.service_unset names turns changed (.inr ⟨verdict, mt (nodes _).mp listed⟩) enabled
    | true =>
      rw [on, if_neg (by simp)] at verdict
      rw [if_neg (by simp)]
      by_cases switched : Switched .ipv4 (findCif (interfacesOf s.cfg) dif) (findCif (interfacesOf change.cfg) dif) dif
      · rw [if_pos switched] at verdict ⊢
        cases auto : autoconfigured .ipv4 (findCif (interfacesOf change.cfg) dif) with
        | true =>
          rw [auto] at verdict
          have inside := turns.names_of_new changed alive
          have name := findCif_name (interfacesOf change.cfg) dif (lyxListForEach_not_null inside)
          exact filled.service_set names turns changed alive verdict (name ▸ all _ inside) enabled
        | false =>
          rw [auto] at verdict
          have inside := turns.names_of_old changed (turns.switched_old changed switched)
          have name := findCif_name (interfacesOf s.cfg) dif (lyxListForEach_not_null inside)
          exact disabled verdict (name ▸ steady.nodes inside)
      · rw [if_neg switched] at verdict ⊢
        exact filled.service_unset names turns changed (.inl verdict) enabled
  · intro r last before plain step x
    have listed := step.lists_iff (before.steady nonempty literal fun _ _ plain => plain) nonempty literal plain x
    cases step
    exact listed

/-- The service stays disabled although the leaf is now true. -/
theorem zeroconf_follows_unheeded : serviceAfter "eth0" false (serviceLines autoRunning autoChanged ["eth0"] ["eth0"]) = false ∧
    ∀ cif ∈ ifaces autoChange.cfg, autoconfigured .ipv4 cif = true := by
  have names : NamesIn Plain autoChange.cfg autoChange.diff := by decide +kernel
  have facts : ∃ dif ∈ ifaces autoChange.diff, ifaceName dif = "eth0" ∧ lydxGetOp dif ≠ .delete ∧
      familyEnabled .ipv4 (findCif (interfacesOf autoChange.cfg) dif) = true ∧
      familyEnabled .ipv4 (findCif (interfacesOf autoRunning.cfg) dif) = true := by decide +kernel
  obtain ⟨dif, changed, name, alive, on, was⟩ := facts
  have follow := (zeroconf_follows "/run/net" (by decide) (by decide) autoRunning autoRunning_commits autoChange names
    autoChange_turns autoChanged autoChange_accepted ["eth0"] ["eth0"] autoRunning_lists (by decide +kernel)).1
    dif changed alive false
  rw [name] at follow
  refine ⟨follow.trans ?_, by decide +kernel⟩
  simp [on, Switched, was]

/-- An interface that the transaction before deleted is created again: it is still
listed, so its service is disabled. -/
example :
    let port := interfaces [ifaceEntry "eth0" ethernetType []]
    let deleted := ((Running.boot twoPorts).to port twoPorts).to [] twoPorts
    let changed := (ifchange "/run/net" (changeTo [] port) deleted.net).2
    ((Running.boot twoPorts).to port twoPorts).Goes [] ∧ deleted.net.Lists "eth0" ∧
      serviceAfter "eth0" true (serviceLines deleted changed ["eth0"] ["eth0"]) = false := by
  decide +kernel

end Netdag
