import InfixOS.Netdag.Membership

/-! Which links of the new configuration are there after a transaction. What the exit
scripts take along is set up again only if it is in the diff itself. -/
namespace Netdag
open Core Dagger Keyed Lyx Posix Relation Yang

section Untouched
variable {base : String} {s : Running} {mid : Net} {change : Change} {plan : Plan} {u : Base Piece}
  {old cif : Ptr} {o m : List Node} {x : String}

/-- Two configurations without a difference name the same peer. -/
theorem vethPeer_same (body : IfaceBody o) (body' : IfaceBody m) (was : lydChild old = ⟨o, op⟩)
    (is : lydChild cif = ⟨m, op'⟩) (same : diffSiblings o m = []) : vethPeer old = vethPeer cif := by
  have read {p : Ptr} {c : List Node} {op : Option Operation} (below : lydChild p = ⟨c, op⟩) :
      vethPeer p = (childOf c "veth").bind fun n => valueOf n.children "peer" := by
    rw [vethPeer, getCattr_eq, lydChild_eq, getDescendant_node, below]
    simp only [find]
    cases childOf c "veth" with
    | none => rfl
    | some n => rfl
  have differs : diffOf (childOf o "veth") (childOf m "veth") = none := by
    rw [← childOf_diffSiblings (body.alone rfl rfl) (body'.alone rfl rfl), same]
    rfl
  rw [read was, read is]
  cases first : childOf o "veth" with
  | none =>
    cases second : childOf m "veth" with
    | none => rfl
    | some n => simp [first, second, diffOf] at differs
  | some k =>
    cases second : childOf m "veth" with
    | none => simp [first, second, diffOf] at differs
    | some n =>
      obtain ⟨b, rfl, inner⟩ := body.child_inner rfl first
      obtain ⟨c, rfl, inner'⟩ := body'.child_inner rfl second
      rw [first, second, diffOf, diffNode_inner_eq_none] at differs
      have peer : childOf (diffSiblings b c) "peer" = none ↔ _ := (inner.leaf_diff inner' rfl).1
      exact peer.mp (by rw [show diffSiblings b c = [] from differs]; rfl)

/-- An interface that is not in the diff was there, of the same type and with the same
peer. -/
theorem Turns.same (turns : Turns s.cfg change) (unlisted : ∀ dif ∈ ifaces change.diff, ifaceName dif ≠ ifaceName cif)
    (member : cif ∈ ifaces change.cfg) : ∃ old ∈ ifaces s.cfg, ifaceName old = ifaceName cif ∧
      lydxGetCattr old "type" = lydxGetCattr cif "type" ∧ vethPeer old = vethPeer cif := by
  obtain ⟨o, m, was, is, name, name', same⟩ := turns.untouched unlisted (.inr (List.mem_map_of_mem member))
  obtain ⟨inside, old⟩ := turns.old.findCif_entry was name.symm
  have own : findCif (interfacesOf change.cfg) cif = cif := findCif_eq turns.new.unique member rfl
  have new : lydChild cif = ⟨m, none⟩ := own ▸ (turns.new.findCif_entry is name'.symm).2
  have body := turns.old.body was
  have body' := turns.new.body is
  refine ⟨_, inside, findCif_name _ _ (lyxListForEach_not_null inside), ?_, vethPeer_same body body' old new same⟩
  have type : childOf (diffSiblings o m) "type" = none ↔ _ := (body.leaf_diff body' rfl).1
  rw [getCattr_eq, getCattr_eq, old, new]
  exact type.mp (by rw [same]; rfl)

theorem kindOf_creates {piece : Piece} (makes : piece.kindOf x ≠ none) : x ∈ piece.creates := by
  cases piece with
  | linkAddVeth y peer =>
    by_cases second : x = str peer
    · simp [Piece.creates, second]
    · by_cases first : x = y
      · simp [Piece.creates, first]
      · simp [Piece.kindOf, first, second] at makes
  | linkAddVlan y parent | linkAddBridge y mask =>
    by_cases own : x = y
    · simp [Piece.creates, own]
    · simp [Piece.kindOf, own] at makes
  | _ => simp [Piece.kindOf] at makes

/-- Nothing makes the link of an interface that is not in the diff. -/
theorem Accepted.unmade (accepted : Accepted base s.net change plan u mid)
    (names : NamesIn Plain change.cfg change.diff) (valid : Valid s.cfg) (valid' : Valid change.cfg)
    (turns : Turns s.cfg change) (member : cif ∈ ifaces change.cfg)
    (unlisted : ∀ dif ∈ ifaces change.diff, ifaceName dif ≠ ifaceName cif) {piece : Piece}
    (line : piece ∈ mid.initScript v) : piece.kindOf (ifaceName cif) = none := by
  by_contra makes
  have made := kindOf_creates makes
  rcases accepted.init_names names valid' turns.unique line (creates_names piece made) with
    rfl | ⟨_, not⟩ | ⟨step, pair, _⟩
  · have unplanned : ifaceName cif ∉ plan.map fun step => ifaceName step.1 := by
      rw [accepted.generated.names]
      intro listed
      obtain ⟨dif, inside, same⟩ := List.mem_map.mp listed
      exact unlisted dif inside same
    simp [accepted.init_unplanned names unplanned] at line
  · exact not made
  · -- The other end of the pair is new, but the old configuration has it as the peer.
    have changed : step.1 ∈ ifaces change.diff := accepted.generated.all ▸ List.mem_map_of_mem pair.listed
    obtain ⟨other, inside, named, type, back⟩ := valid'.peer pair.adds.member pair.adds.type
    rw [pair.peer, Option.some.injEq] at named
    obtain rfl : cif = other := List.inj_on_of_nodup_map valid'.unique member inside named
    obtain ⟨old, before, name, type', peer⟩ := turns.same unlisted member
    obtain ⟨first, there, known, _⟩ := valid.peer before (type'.trans type)
    rw [peer, back, Option.some.injEq, pair.adds.name] at known
    have was := (turns.old_iff changed).mp (List.mem_map.mpr ⟨first, there, known.symm⟩)
    have again : recreated step.1 (findCif (interfacesOf change.cfg) step.1) = true := by
      have fresh := pair.adds.fresh
      simp only [created, was, decide_false, Bool.false_or, Bool.and_eq_true] at fresh
      exact fresh.2
    cases turns.delta changed with
    | created _ _ _ below => exact was (getOp_of below)
    | changed old' new' body body' below =>
      have vlan := ((recreated_iff body body' old' new' below).mp again).1
      simp [pair.adds.type, typeVeth, typeVlan] at vlan
    | deleted _ _ _ below => simpa [created, getOp_of below] using pair.adds.fresh

end Untouched

/-- A link of the new configuration is there after the scripts of a transaction exactly
if its interface is in the diff, or if it stands on nothing that is deleted, for good or
to be created again, and on no peer of that. -/
theorem survives_iff (base : String) (nonempty : base ≠ "") (literal : Literal base) (s : Running)
    (commits : Commits base NamesPlain s) (valid : Valid s.cfg) (change : Change) (names : NamesPlain s change)
    (valid' : Valid change.cfg) (turns : Turns s.cfg change) (mid : Net)
    (accepted : ifchange base change s.net = (.ok, mid)) (down up : List String)
    (below : ∀ cif ∈ ifaces s.cfg, ifaceName cif ∈ down) (above : ∀ cif ∈ ifaces change.cfg, ifaceName cif ∈ up)
    (devices after : Devices) (holds : HoldsLinks devices.kinds s.cfg)
    (ran : devices.runScripts (linkScripts s mid down up) = some after) (cif : Ptr) (member : cif ∈ ifaces change.cfg) :
    after (ifaceName cif) ≠ none ↔
      (∃ dif ∈ ifaces change.diff, ifaceName dif = ifaceName cif) ∨
      ∀ y, Drops change y → isFixed s.net.kernel y = false →
        ¬ReflTransGen (VlanOn s.cfg) (ifaceName cif) y ∧
          ∀ p, VethOf s.cfg y p → ¬ReflTransGen (VlanOn s.cfg) (ifaceName cif) p := by
  have steady := commits.steady nonempty literal fun _ _ plain => plain
  obtain ⟨plan, u, filled⟩ := steady.accepted names accepted
  obtain ⟨gone, bare, left, which, ran⟩ := filled.runs steady names turns.differs below ran
  by_cases listed : ∃ dif ∈ ifaces change.diff, ifaceName dif = ifaceName cif
  · refine iff_of_true ?_ (.inl listed)
    obtain ⟨dif, changed, name⟩ := listed
    have alive := turns.alive changed member name
    obtain ⟨skip, script⟩ := filled.own_init names turns changed alive
    have once : ((mid.initScript (ifaceName dif)).filterMap masterSetting.gives).length ≤ 1 := by
      rw [script, init_master]
      cases bridgeOf (findCif (interfacesOf change.cfg) dif) <;> simp
    obtain ⟨d, found, _⟩ := masterSetting.after_scripts (fun v _ => filled.init_scripts names turns.unique v)
      (name ▸ above cif member) once (by rw [script]; exact init_down _ _ (findCif_name _ _)) ran
    simp [← name, found]
  · push Not at listed
    obtain ⟨old, inside, name, _⟩ := turns.same listed member
    have was : devices.kinds (ifaceName cif) ≠ none := by simp [← name, holds.own old inside]
    have there : ifaceName cif ∈ (ifaces s.cfg).map ifaceName := List.mem_map.mpr ⟨old, inside, name⟩
    -- The scripts of the others neither make the link nor take it away.
    have kept : after (ifaceName cif) = none ↔ bare (ifaceName cif) = none := by
      refine Devices.runScripts_keeps (Q := fun held => held = none ↔ bare (ifaceName cif) = none) ran Iff.rfl
        fun v _ devices after ran same => ?_
      have script := filled.init_scripts names turns.unique v
      rw [script.run_eq] at ran
      refine Devices.run_keeps (Q := fun held => held = none ↔ bare (ifaceName cif) = none) script.own script.kept
        (fun piece line held held' changes same => ?_) ran same
      have unmade := filled.unmade names valid valid' turns member listed line
      cases changes with
      | same => exact same
      | made makes => simp [unmade] at makes
      | adjusted => simpa using same
    rw [ne_eq, kept, ← Devices.kinds_eq_none, ← ne_eq, left.remaining.present_iff]
    simp only [was, ne_eq, not_false_eq_true, true_and, which, and_imp]
    rw [or_iff_right (by push Not; exact listed)]
    refine forall_congr' fun y => imp_congr_right fun drops => imp_congr_right fun _ => ?_
    rw [holds.vanishes_iff valid there (turns.differs.drops drops)]
    push Not
    rfl

/-- A VLAN on a VLAN on a port. -/
def vlanStack (vid : String) : List Node :=
  let tag (vid : String) : Node := .inner "encapsulation" [] .plain [.inner "dot1q-vlan" [] .plain
    [.inner "outer-tag" [] .plain [.leaf "tag-type" "ieee802-dot1q-types:c-vlan" false .plain,
      .leaf "vlan-id" vid false .plain]]]
  interfaces [ifaceEntry "eth0" ethernetType [],
    ifaceEntry "vlan1" typeVlan [tag vid, .leaf "parent-interface" "eth0" false .plain],
    ifaceEntry "vlan2" typeVlan [tag "2", .leaf "parent-interface" "vlan1" false .plain]]

def vlanStackRunning : Running := (Running.boot (linked [("eth0", .ether)])).to (vlanStack "1")
  (linked [("eth0", .ether), ("vlan1", .vlan "eth0"), ("vlan2", .vlan "vlan1")])

/-- The CHANGE of the lower tag. -/
def retag : Change := changeTo vlanStackRunning.cfg (vlanStack "3")

def retagged : Net := (ifchange "/run/net" retag vlanStackRunning.net).2

def vlanDevices : Devices
  | "lo" => some (.new .loopback)
  | "eth0" => some (.new .ether)
  | "vlan1" => some (.new (.vlan "eth0"))
  | "vlan2" => some (.new (.vlan "vlan1"))
  | _ => none

/-- The lower VLAN is created again, and the upper one is gone. -/
theorem survives_iff_retag : ∃ after,
    vlanDevices.runScripts (linkScripts vlanStackRunning retagged ["vlan2", "vlan1", "eth0"] ["eth0", "vlan1", "vlan2"]) =
      some after ∧ after "vlan1" ≠ none ∧ after "vlan2" = none := by
  have goes : (Running.boot (linked [("eth0", .ether)])).Goes vlanStackRunning.cfg := by decide +kernel
  have plain : NamesIn Plain (changeTo [] vlanStackRunning.cfg).cfg (changeTo [] vlanStackRunning.cfg).diff := by
    decide +kernel
  have commits : Commits "/run/net" NamesPlain vlanStackRunning := (Commits.boot _).to _ _ goes plain
  have names : NamesIn Plain retag.cfg retag.diff := by decide +kernel
  have turns : Turns vlanStackRunning.cfg retag := ⟨by decide +kernel, by decide +kernel, rfl⟩
  have valid : Valid vlanStackRunning.cfg := by decide +kernel
  have valid' : Valid retag.cfg := by decide +kernel
  have ok : (ifchange "/run/net" retag vlanStackRunning.net).1 = .ok := by decide +kernel
  have accepted : ifchange "/run/net" retag vlanStackRunning.net = (.ok, retagged) := by rw [retagged, ← ok]
  have holds : HoldsLinks vlanDevices.kinds vlanStackRunning.cfg := by decide +kernel
  have scripts : linkScripts vlanStackRunning retagged ["vlan2", "vlan1", "eth0"] ["eth0", "vlan1", "vlan2"] =
      [[], [.linkDel "vlan1"], [], [], [.linkAddVlan "vlan1" (some "eth0"), .vlanProto "802.1Q", .vlanId (some "3"),
        .newline, .linkSetDown "vlan1", .addrgenmode "none", .newline, .linkSetUp "vlan1"], []] := by decide +kernel
  have drops : Drops retag "vlan1" := by decide +kernel
  have dynamic : isFixed vlanStackRunning.net.kernel "vlan1" = false := by decide +kernel
  have gone : vlanDevices.del "vlan1" "vlan1" = none := if_pos .self
  have left : vlanDevices.del "vlan1" "eth0" ≠ none := by
    have stays : ¬Vanishes vlanDevices.kinds "vlan1" "eth0" := by
      intro vanishes
      generalize other : "eth0" = x at vanishes
      cases vanishes with
      | self => simp at other
      | peer veth => simp [Devices.kinds, vlanDevices, Device.new] at veth
      | vlan _ above => simp [← other, Devices.kinds, vlanDevices, Device.new] at above
    simp [Devices.del, if_neg stays, vlanDevices]
  have ran : ∃ after, vlanDevices.runScripts (linkScripts vlanStackRunning retagged ["vlan2", "vlan1", "eth0"]
      ["eth0", "vlan1", "vlan2"]) = some after := by
    have first : vlanDevices.run "" [.linkDel "vlan1"] = some (vlanDevices.del "vlan1") := rfl
    rw [scripts, Devices.runScripts, Devices.run, Option.bind_some, Devices.runScripts, first, Option.bind_some]
    generalize vlanDevices.del "vlan1" = bare at gone left
    simp [Devices.runScripts, Devices.run, Devices.exec, Piece.subject, gone, left, Devices.adjust, Devices.make,
      Device.adjust, Piece.edits, str]
  obtain ⟨after, ran⟩ := ran
  have links_iff (cif : Ptr) (member : cif ∈ ifaces retag.cfg) :=
    survives_iff "/run/net" (by decide) (by decide) vlanStackRunning commits valid retag names valid' turns retagged accepted
      ["vlan2", "vlan1", "eth0"] ["eth0", "vlan1", "vlan2"] (by decide +kernel) (by decide +kernel) vlanDevices after holds ran
      cif member
  have lower : ∃ cif ∈ ifaces retag.cfg, ifaceName cif = "vlan1" ∧
      ∃ dif ∈ ifaces retag.diff, ifaceName dif = ifaceName cif := by decide +kernel
  have upper : ∃ cif ∈ ifaces retag.cfg, ifaceName cif = "vlan2" ∧
      ∀ dif ∈ ifaces retag.diff, ifaceName dif ≠ ifaceName cif := by decide +kernel
  have on : ∃ cif ∈ ifaces vlanStackRunning.cfg, ifaceName cif = "vlan2" ∧ lydxGetCattr cif "type" = some typeVlan ∧
      lydxGetCattr cif "parent-interface" = some "vlan1" := by decide +kernel
  obtain ⟨cif, member, name, listed⟩ := lower
  obtain ⟨cif', member', name', unlisted⟩ := upper
  refine ⟨after, ran, name ▸ (links_iff cif member).mpr (.inl listed), ?_⟩
  by_contra there
  rw [← name'] at there
  rcases (links_iff cif' member').mp there with ⟨dif, changed, same⟩ | free
  · exact unlisted dif changed same
  · exact (free "vlan1" drops dynamic).1 (name' ▸ .single on)

end Netdag
