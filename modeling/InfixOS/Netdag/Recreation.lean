import InfixOS.Netdag.Readdressing

/-! Links that are created again. The generator decides from the diff alone
whether a link can stay, by looking for nodes that have to be in it. -/
namespace Netdag
open Core Dagger Lyx Posix Yang

def tagPath : List String := ["encapsulation", "dot1q-vlan", "outer-tag"]

/-- The outer tag of a VLAN, with its type. -/
def tagOf (cif : Ptr) : Option String × Option String :=
  (lydxGetCattr (outerTag cif) "tag-type", lydxGetCattr (outerTag cif) "vlan-id")

/-- A VLAN gets another parent or another tag. -/
def VlanMoves (old new : Ptr) : Prop :=
  lydxGetCattr old "parent-interface" ≠ lydxGetCattr new "parent-interface" ∨ tagOf old ≠ tagOf new

instance (old new : Ptr) : Decidable (VlanMoves old new) := inferInstanceAs (Decidable (_ ∨ _))

/-- A change that Linux cannot make on a link that exists. -/
def Relinks (old new : Ptr) : Prop :=
  lydxGetCattr old "type" ≠ lydxGetCattr new "type" ∨
    lydxGetCattr new "type" = some typeVlan ∧ VlanMoves old new ∨
    lydxGetCattr new "type" = some typeVeth ∧ vethPeer old ≠ vethPeer new

instance (old new : Ptr) : Decidable (Relinks old new) := inferInstanceAs (Decidable (_ ∨ _))

abbrev TagBody (children : List Node) : Prop := Body ["tag-type", "vlan-id"] true false tagSub children

section Tags
variable {o m : List Node} {old cif dif : Ptr} {op op' : Option Operation}

/-- The outer tag among the children of an interface. -/
theorem IfaceBody.tag (body : IfaceBody o) : AlonePath o tagPath ∧
    ∀ n, find o tagPath = some n → ∃ name t, n = .inner name [] .plain t ∧ TagBody t := by
  have schema : schemaAt ifaceSub tagPath = some (.inner [] ["tag-type", "vlan-id"] true false tagSub) := rfl
  obtain ⟨alone, conforms⟩ := body.path schema rfl
  exact ⟨alone, fun n found => conforms_inner.mp (conforms n found)⟩

theorem outerTag_node (is : lydChild cif = ⟨m, op⟩) : (outerTag cif).node = find m tagPath := by
  rw [outerTag, getDescendant_node, is]
  rfl

theorem tagOf_eq (is : lydChild cif = ⟨m, op⟩) : tagOf cif =
    ((find m tagPath).bind fun n => valueOf n.children "tag-type",
      (find m tagPath).bind fun n => valueOf n.children "vlan-id") := by
  have read (name : String) :
      lydxGetCattr (outerTag cif) name = (find m tagPath).bind fun n => valueOf n.children name := by
    rw [getCattr_eq, lydChild_eq, outerTag_node is]
    cases find m tagPath with
    | none => rfl
    | some n => rfl
  rw [tagOf, read, read]

/-- A tag is in the difference of two configurations if it has changed. -/
theorem diffOf_tag (body : IfaceBody o) (body' : IfaceBody m) (was : lydChild old = ⟨o, op⟩)
    (is : lydChild cif = ⟨m, op'⟩) : diffOf (find o tagPath) (find m tagPath) = none ↔ tagOf old = tagOf cif := by
  have value {t : List Node} (body : TagBody t) : ∃ v, valueOf t "tag-type" = some v := by
    obtain ⟨v, _, found, _⟩ := body.required_leaf "tag-type" rfl (by simp)
    exact ⟨v, by simp [valueOf_eq, found, Node.value]⟩
  rw [tagOf_eq was, tagOf_eq is]
  cases found : find o tagPath with
  | none =>
    cases found' : find m tagPath with
    | none => simp [diffOf]
    | some n' =>
      obtain ⟨_, t, rfl, tag⟩ := body'.tag.2 _ found'
      obtain ⟨v, there⟩ := value tag
      simp [diffOf, Node.children, there]
  | some n =>
    obtain ⟨_, t, rfl, tag⟩ := body.tag.2 _ found
    obtain ⟨v, there⟩ := value tag
    cases found' : find m tagPath with
    | none => simp [diffOf, Node.children, there]
    | some n' =>
      obtain ⟨_, t', rfl, tag'⟩ := body'.tag.2 _ found'
      have types : childOf (diffSiblings t t') "tag-type" = none ↔ _ := (tag.leaf_diff tag' rfl).1
      have ids : childOf (diffSiblings t t') "vlan-id" = none ↔ _ := (tag.leaf_diff tag' rfl).1
      rw [diffOf, diffNode_inner_eq_none, Node.children, tag.diff_nil tag']
      simp only [Option.bind_some, Node.children, Prod.mk.injEq, ← types, ← ids]
      constructor
      · exact fun none => ⟨none _ rfl, none _ rfl⟩
      · rintro ⟨noType, noId⟩ name known
        by_cases type : name = "tag-type"
        · exact type ▸ noType
        · by_cases id : name = "vlan-id"
          · exact id ▸ noId
          · simp [tagSub, List.lookup, beq_eq_false_iff_ne.mpr type, beq_eq_false_iff_ne.mpr id] at known

/-- What the generator takes for a change that needs a new link: a VLAN that
moves. The peer of a veth is not where it looks for it. -/
theorem recreated_iff (body : IfaceBody o) (body' : IfaceBody m) (was : lydChild old = ⟨o, op⟩)
    (is : lydChild cif = ⟨m, op'⟩) (below : lydChild dif = ⟨keyLeaves ["name"] o ++ diffSiblings o m, some .none⟩) :
    recreated dif cif = true ↔ lydxGetCattr cif "type" = some typeVlan ∧ VlanMoves old cif := by
  have parent : lydxGetCattr dif "parent-interface" = none ↔
      lydxGetCattr old "parent-interface" = lydxGetCattr cif "parent-interface" := by
    have leaf : valueOf (diffSiblings o m) "parent-interface" = none ↔ _ := (body.leaf_diff body' rfl).2
    rw [getCattr_eq, getCattr_eq, getCattr_eq, was, is, below, ← leaf, valueOf_eq, valueOf_eq,
      childOf_changed (by decide)]
  have tag : (lydxGetDescendant (lydChild dif) tagPath).isNull = true ↔ tagOf old = tagOf cif := by
    have path : find (keyLeaves ["name"] o ++ diffSiblings o m) tagPath = find (diffSiblings o m) tagPath := by
      rw [tagPath, find_cons _ _ (by simp), find_cons _ _ (by simp), childOf_changed (by decide)]
    rw [← diffOf_tag body body' was is, isNull_eq, getDescendant_node, below, path, Option.isNone_iff_eq_none,
      ← Option.not_isSome_iff_eq_none, find_diffSiblings _ body.tag.1 body'.tag.1, Option.not_isSome_iff_eq_none]
  have peer : (lydxGetDescendant (lydChild dif) ["peer"]).isNull = true := by
    have none : childOf (diffSiblings o m) "peer" = Option.none := by
      have alone {c : List Node} (body : IfaceBody c) : Alone "peer" c := body.alone (rfl : _ = some Schema.never) rfl
      rw [childOf_diffSiblings (alone body) (alone body'), body.never rfl, body'.never rfl, diffOf]
    rw [isNull_eq, getDescendant_node, below, find, childOf_changed (by decide), none]
    rfl
  have alive : lydxGetOp dif ≠ .create := by rw [getOp_of below]; decide
  obtain ⟨type, _, found, _⟩ := body'.required_leaf "type" rfl (by simp)
  have typed : lydxGetCattr cif "type" = some type := by simp [getCattr_eq, is, valueOf_eq, found, Node.value]
  have moves : VlanMoves old cif ↔ lydxGetCattr dif "parent-interface" ≠ none ∨
      ¬(lydxGetDescendant (lydChild dif) tagPath).isNull = true := by
    rw [VlanMoves, ne_eq, ne_eq, ← parent, ← tag]
  rw [recreated, typed, str, Option.getD_some, netdagMustDel, peer, moves]
  by_cases vlan : type = typeVlan
  · have other : typeVlan ≠ typeBridge := by decide
    simp [vlan, other, alive, tagPath, Option.isSome_iff_ne_none]
  · simp [vlan]

end Tags

/-- The line that adds the link of an interface as it is configured. -/
def linkLine (cif : Ptr) : List Piece :=
  if hasType cif typeBridge then [.linkAddBridge (ifaceName cif) (netdagGetBridgeFwdMask cif)]
  else if hasType cif typeVeth then [.linkAddVeth (ifaceName cif) (vethPeer cif)]
  else if hasType cif typeVlan then
    [.linkAddVlan (ifaceName cif) (lydxGetCattr cif "parent-interface"), .vlanProto (protoText (tagOf cif).1),
      .vlanId (tagOf cif).2, .newline]
  else []

/-- The link is deleted and added again. All settings are applied to it, as to a
link that is created with this configuration. One end of a veth pair may be
created by the script of the other. -/
structure Remade (s : Running) (mid : Net) (cif : Ptr) : Prop where
  deleted : exitLines s mid [ifaceName cif] = [.linkDel (ifaceName cif)]
  added : linkLine cif ≠ [] ∧ linkLine cif <+: mid.initScript (ifaceName cif) ∨
    lydxGetCattr cif "type" = some typeVeth ∧ ∃ peer, vethPeer cif = some peer ∧
      .linkAddVeth peer (some (ifaceName cif)) ∈ mid.initScript peer
  applied : ∃ skip, mid.initScript (ifaceName cif) =
    setupPieces false skip .create (markCreated cif) (markCreated cif)

/-- Neither script of an interface deletes or adds a link. -/
def Stays (s : Running) (mid : Net) (x : String) : Prop :=
  ∀ piece ∈ exitLines s mid [x] ++ mid.initScript x, piece.creates = [] ∧ ∀ y, piece ≠ .linkDel y

section Scripts
variable {m : List Node} {cif dif : Ptr} {skip : Bool}

/-- A leaf of a node that is created. -/
theorem getDiff_created (below : lydChild p = ⟨nodes, some .create⟩)
    (leaf : childOf nodes name = some (.leaf name value false .plain)) :
    (lydxGetDiff (lydxGetChild p name)).modified = true ∧ (lydxGetDiff (lydxGetChild p name)).new = some value := by
  have node := (getChild_of below name).1.trans leaf
  have op : lydxGetOp (lydxGetChild p name) = .create := by
    rw [lydxGetOp, getChild_operation below, leaf]
    rfl
  generalize lydxGetChild p name = q at node op
  obtain ⟨_ | ⟨n, rest⟩, inherited⟩ := q
  · simp [Ptr.node] at node
  · obtain rfl : n = .leaf name value false .plain := by simpa [Ptr.node] using node
    simp [lydxGetDiff, op, Node.value, Node.isDefault]

/-- The line for a VLAN that is created with its tag. -/
theorem vlanLine_created (body : IfaceBody m) (below : lydChild cif = ⟨m, some .create⟩)
    (tagged : (outerTag cif).isNull = false) : vlanLine .null cif =
      [.linkAddVlan (ifaceName cif) (lydxGetCattr cif "parent-interface"), .vlanProto (protoText (tagOf cif).1),
        .vlanId (tagOf cif).2, .newline] := by
  have schema : schemaAt ifaceSub tagPath = some (.inner [] ["tag-type", "vlan-id"] true false tagSub) := rfl
  cases found : find m tagPath with
  | none => simp [isNull_eq, outerTag_node below, found] at tagged
  | some n =>
    obtain ⟨_, t, rfl, tag⟩ := body.tag.2 _ found
    have down : lydChild (outerTag cif) = ⟨t, some .create⟩ := getDescendant_below body schema below found
    obtain ⟨type, flag, typeLeaf, _, unset⟩ := tag.required_leaf "tag-type" rfl (by simp)
    obtain rfl : flag = false := by simpa using unset
    obtain ⟨vid, flag, vidLeaf, _, unset⟩ := tag.required_leaf "vlan-id" rfl (by simp)
    obtain rfl : flag = false := by simpa using unset
    obtain ⟨typeChanged, typeNew⟩ := getDiff_created down typeLeaf
    obtain ⟨vidChanged, vidNew⟩ := getDiff_created down vidLeaf
    have values : tagOf cif = (some type, some vid) := by
      simp [tagOf_eq below, found, Node.children, valueOf_eq, typeLeaf, vidLeaf, Node.value]
    have own : (if Ptr.null.isNull then cif else .null) = cif := rfl
    rw [vlanLine, own, tagged, vlanPieces, typeChanged, vidChanged, typeNew, vidNew, values]
    rfl

/-- A script that sets up a VLAN as new begins with the line for its link, if it has
a tag. -/
theorem linkLine_iff (is : lydChild cif = ⟨m, op⟩) (body : IfaceBody m) (present : cif.isNull = false)
    (type : lydxGetCattr cif "type" = some typeVlan) (skip : Bool) :
    (linkLine cif ≠ [] ∧ linkLine cif <+: setupPieces false skip .create (markCreated cif) (markCreated cif)) ↔
      (outerTag cif).isNull = false := by
  have child := markCreated_child cif
  have type' := (cattr_child child "type").trans type
  have tag : (outerTag (markCreated cif)).isNull = (outerTag cif).isNull :=
    isNull_nodes (lydxGetDescendant_nodes _ child)
  have line : linkLine cif = [.linkAddVlan (ifaceName cif) (lydxGetCattr cif "parent-interface"),
      .vlanProto (protoText (tagOf cif).1), .vlanId (tagOf cif).2, .newline] := by
    simp [linkLine, hasType, type, typeVlan, typeBridge, typeVeth]
  have add : addPieces skip (markCreated cif) = vlanLine .null (markCreated cif) := by
    simp [addPieces, hasType, type', typeVlan, typeBridge, typeVeth]
  rw [line, setupPieces, add]
  cases tagged : (outerTag cif).isNull with
  | true =>
    refine iff_of_false ?_ (by simp)
    rintro ⟨_, first, same⟩
    have own : (if Ptr.null.isNull then markCreated cif else .null) = markCreated cif := rfl
    simp [vlanLine, own, tag, tagged] at same
  | false =>
    have below := markCreated_below present is
    have same : tagOf (markCreated cif) = tagOf cif := by rw [tagOf_eq below, tagOf_eq is]
    rw [vlanLine_created body below (tag.trans tagged), ifaceName_child child, cattr_child child, same]
    refine iff_of_true ⟨by simp, ?_⟩ rfl
    simp only [Bool.not_false, Bool.true_and, decide_true, if_true, List.append_assoc]
    exact List.prefix_append _ _

/-- Links are deleted by exit scripts alone. -/
theorem setup_no_del (fixed skip : Bool) (op : Operation) (dif cif : Ptr) (y : String) :
    .linkDel y ∉ setupPieces fixed skip op dif cif := by
  have line (dif : Ptr) : .linkDel y ∉ vlanLine dif cif := by
    unfold vlanLine vlanPieces
    simp
  have add : .linkDel y ∉ addPieces skip cif := by
    unfold addPieces
    split_ifs <;> simp [line]
  have set : .linkDel y ∉ setPieces dif cif := by
    unfold setPieces
    split_ifs <;> simp [line]
  have mode : .linkDel y ∉ ipv6AutoconfPieces cif dif := by
    unfold ipv6AutoconfPieces
    split <;> simp
  have address (family : Family) : .linkDel y ∉ addressPieces family cif dif := by
    unfold addressPieces
    simp only
    split
    · simp
    · split
      · simp
      · simp [diffAddrPieces]
  simp [setupPieces, add, set, mode, portPieces, address, upPieces]

end Scripts

/-- A changed dynamic interface gets a new link if it has to, and keeps its link
otherwise, exactly if every change that needs a new link is a VLAN's move, to a
configuration with a tag. -/
theorem relinked_iff (base : String) (nonempty : base ≠ "") (literal : Literal base) (s : Running)
    (commits : Commits base NamesPlain s) (change : Change) (names : NamesPlain s change) (turns : Turns s.cfg change)
    (mid : Net) (accepted : ifchange base change s.net = (.ok, mid)) (dif : Ptr) (changed : dif ∈ ifaces change.diff)
    (modified : lydxGetOp dif = .none) (dynamic : isFixed s.net.kernel (ifaceName dif) = false) :
    let old := findCif (interfacesOf s.cfg) dif
    let new := findCif (interfacesOf change.cfg) dif
    ((Relinks old new → recreated dif new = true ∧ Remade s mid new) ∧
      (¬Relinks old new → Stays s mid (ifaceName dif))) ↔
    (Relinks old new → lydxGetCattr new "type" = some typeVlan ∧ VlanMoves old new ∧
      (outerTag new).isNull = false) := by
  intro old new
  have steady := commits.steady nonempty literal fun _ _ plain => plain
  obtain ⟨plan, u, filled⟩ := steady.accepted names accepted
  have delta : Delta old new dif := turns.delta changed
  have positive := (steady.nodes (turns.names_of_old changed (by simp [modified]))).1
  have alive : lydxGetOp dif ≠ .delete := by simp [modified]
  have down := filled.own_exit positive names turns changed alive
  obtain ⟨skip, up⟩ := filled.own_init names turns changed alive
  rw [dynamic] at up down
  cases delta with
  | created _ _ _ below => simp [getOp_of below] at modified
  | deleted _ _ _ below => simp [getOp_of below] at modified
  | changed was is body body' below =>
    have present : new.isNull = false := by
      rw [isNull_eq, Option.isNone_eq_false_iff, Option.isSome_iff_ne_none]
      intro none
      rw [lydChild_eq, none] at is
      exact body'.not_nil (congrArg Ptr.nodes is).symm
    have name : ifaceName new = ifaceName dif := findCif_name _ dif present
    have again := recreated_iff body body' was is below
    by_cases moves : lydxGetCattr new "type" = some typeVlan ∧ VlanMoves old new
    · have relinks : Relinks old new := .inr (.inl moves)
      rw [if_pos (again.mpr moves)] at down
      rw [initPieces, if_pos (again.mpr moves)] at up
      have tagged := linkLine_iff is body' present moves.1 skip
      simp only [relinks, not_true, forall_const, false_implies, and_true, moves.1, moves.2, true_and]
      constructor
      · rintro ⟨_, remade⟩
        rcases remade.added with line | ⟨veth, _⟩
        · rw [name, up] at line
          exact tagged.mp line
        · simp [moves.1, typeVlan, typeVeth] at veth
      · intro tag
        refine ⟨again.mpr moves, ?_, .inl ?_, skip, by rw [name, up]⟩
        · rw [name, down]
          rfl
        · rw [name, up]
          exact tagged.mpr tag
    · have kept : recreated dif new = false := by
        rw [Bool.eq_false_iff]
        exact mt again.mp moves
      rw [if_neg (by simp [show recreated dif (findCif (interfacesOf change.cfg) dif) = false from kept])] at down
      have stays : Stays s mid (ifaceName dif) := by
        rw [Stays, down, up, List.nil_append]
        obtain ⟨rest, pieces, adjusts⟩ := init_adjusts false skip alive (lyxListForEach_not_null changed)
          (findCif_name (interfacesOf change.cfg) dif)
        have same : created dif new = false := by simp [created, modified, kept]
        intro piece member
        constructor
        · rw [pieces, if_neg (by simp [show created dif (findCif (interfacesOf change.cfg) dif) = false from same])]
            at member
          exact (adjusts piece member).creates
        · rintro y rfl
          rw [initPieces, if_neg (by simp [show recreated dif (findCif (interfacesOf change.cfg) dif) = false from kept])]
            at member
          exact setup_no_del _ _ _ _ _ y member
      constructor
      · rintro ⟨remade, _⟩ relinks
        simp [kept] at remade
        exact absurd relinks remade
      · intro only
        exact ⟨fun relinks => absurd ⟨(only relinks).1, (only relinks).2.1⟩ moves, fun _ => stays⟩

/-- A VLAN on one of two ports. -/
def vlanEntry (parent vid : String) : Node :=
  ifaceEntry "vlan1" typeVlan [.inner "encapsulation" [] .plain [.inner "dot1q-vlan" [] .plain
    [.inner "outer-tag" [] .plain [.leaf "tag-type" "ieee802-dot1q-types:c-vlan" false .plain,
      .leaf "vlan-id" vid false .plain]]], .leaf "parent-interface" parent false .plain]

def vlanOn (parent vid : String) : List Node :=
  interfaces [ifaceEntry "eth0" ethernetType [], ifaceEntry "eth1" ethernetType [], vlanEntry parent vid]

def vlanRunning : Running := (Running.boot twoPorts).to (vlanOn "eth0" "1")
  ⟨[⟨"eth0", .ether, [], []⟩, ⟨"eth1", .ether, [], []⟩, ⟨"vlan1", .vlan "eth0", [], []⟩]⟩

def vlanMove : Change := changeTo vlanRunning.cfg (vlanOn "eth1" "2")

def vlanMoved : Net := (ifchange "/run/net" vlanMove vlanRunning.net).2

/-- The VLAN moves to the other port and gets another tag. -/
theorem relinked_iff_vlan :
    exitLines vlanRunning vlanMoved ["vlan1"] = [.linkDel "vlan1"] ∧
    [.linkAddVlan "vlan1" (some "eth1"), .vlanProto "802.1Q", .vlanId (some "2"), .newline] <+:
      vlanMoved.initScript "vlan1" := by
  have goes : (Running.boot twoPorts).Goes vlanRunning.cfg := by decide +kernel
  have plain : NamesIn Plain (changeTo [] vlanRunning.cfg).cfg (changeTo [] vlanRunning.cfg).diff := by decide +kernel
  have commits : Commits "/run/net" NamesPlain vlanRunning := (Commits.boot _).to _ _ goes plain
  have names : NamesIn Plain vlanMove.cfg vlanMove.diff := by decide +kernel
  have turns : Turns vlanRunning.cfg vlanMove := ⟨by decide +kernel, by decide +kernel, rfl⟩
  have ok : (ifchange "/run/net" vlanMove vlanRunning.net).1 = .ok := by decide +kernel
  have accepted : ifchange "/run/net" vlanMove vlanRunning.net = (.ok, vlanMoved) := by rw [vlanMoved, ← ok]
  have facts : ∃ dif ∈ ifaces vlanMove.diff, lydxGetOp dif = .none ∧
      isFixed vlanRunning.net.kernel (ifaceName dif) = false ∧
      let cif := findCif (interfacesOf vlanMove.cfg) dif
      ifaceName cif = "vlan1" ∧ linkLine cif =
          [.linkAddVlan "vlan1" (some "eth1"), .vlanProto "802.1Q", .vlanId (some "2"), .newline] ∧
        lydxGetCattr cif "type" = some typeVlan ∧ VlanMoves (findCif (interfacesOf vlanRunning.cfg) dif) cif ∧
        (outerTag cif).isNull = false := by decide +kernel
  obtain ⟨dif, changed, modified, dynamic, name, line, type, moves, tag⟩ := facts
  have relinked := relinked_iff "/run/net" (by decide) (by decide) vlanRunning commits _ names turns vlanMoved accepted
    dif changed modified dynamic
  obtain ⟨_, remade⟩ := (relinked.mpr fun _ => ⟨type, moves, tag⟩).1 (.inr (.inl ⟨type, moves⟩))
  obtain ⟨_, first⟩ := remade.added.resolve_right fun ⟨veth, _⟩ => by simp [type, typeVlan, typeVeth] at veth
  have deleted := remade.deleted
  rw [name] at deleted first
  exact ⟨deleted, line ▸ first⟩

/-- The ends of a veth pair, of which the first is to get another peer. -/
def vethTo (peer : String) : List Node := interfaces
  [ifaceEntry "veth0" typeVeth [.inner "veth" [] .plain [.leaf "peer" peer false .plain]],
    ifaceEntry peer typeVeth [.inner "veth" [] .plain [.leaf "peer" "veth0" false .plain]]]

def vethRunning : Running := (Running.boot twoPorts).to (vethTo "veth1")
  ⟨[⟨"veth0", .veth "veth1", [], []⟩, ⟨"veth1", .veth "veth0", [], []⟩]⟩

/-- A veth that is given another peer is not created again. -/
theorem veth_peer_kept :
    let change := changeTo vethRunning.cfg (vethTo "veth2")
    let changed := ifchange "/run/net" change vethRunning.net
    Commits "/run/net" NamesPlain vethRunning ∧ NamesPlain vethRunning change ∧ Turns vethRunning.cfg change ∧
      changed.1 = .ok ∧ ∃ dif ∈ ifaces change.diff, ifaceName dif = "veth0" ∧ lydxGetOp dif = .none ∧
        isFixed vethRunning.net.kernel "veth0" = false ∧
        Relinks (findCif (interfacesOf vethRunning.cfg) dif) (findCif (interfacesOf change.cfg) dif) ∧
        recreated dif (findCif (interfacesOf change.cfg) dif) = false ∧
        exitLines vethRunning changed.2 ["veth0"] = [] ∧
        changed.2.initScript "veth0" = [.linkSetDown "veth0", .addrgenmode "none", .newline, .linkSetUp "veth0"] := by
  intro change changed
  have goes : (Running.boot twoPorts).Goes vethRunning.cfg := by decide +kernel
  have plain : NamesIn Plain (changeTo [] vethRunning.cfg).cfg (changeTo [] vethRunning.cfg).diff := by decide +kernel
  have names : NamesIn Plain change.cfg change.diff := by decide +kernel
  refine ⟨(Commits.boot _).to _ _ goes plain, names, ⟨by decide +kernel, by decide +kernel, rfl⟩, ?_⟩
  decide +kernel

end Netdag
