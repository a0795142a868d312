import InfixOS.Netdag.Dependencies

/-! Where links are created. An interface that is added has one line that creates
its link, and the edges of the generation put this line before all others that
name the interface. -/
namespace Netdag
open Core Dagger Exec Lyx Posix Posix.FileTree Yang

/-- The links that a piece of a script creates. -/
def Piece.creates : Piece → List String
  | .linkAddVeth ifname peer => [ifname, str peer]
  | .linkAddVlan ifname _ | .linkAddBridge ifname _ => [ifname]
  | _ => []

/-- The interfaces that a piece of a script names. -/
def Piece.names : Piece → List String
  | .linkAddVeth ifname peer => [ifname, str peer]
  | .linkAddVlan ifname parent => [ifname, str parent]
  | .master bridge => [str bridge]
  | .addressDelete _ _ ifname | .addressAdd _ _ _ ifname | .zeroconfEnable ifname | .zeroconfDisable ifname
  | .forwarding _ ifname _ | .linkAddBridge ifname _ | .linkSetBridge ifname _ | .linkSetDown ifname
  | .linkSetUp ifname | .exitDown ifname | .exitFlush ifname | .linkDel ifname => [ifname]
  | .initctlReload | .addrgenmode _ | .vlanProto _ | .vlanId _ | .newline => []

/-- A single line creates the link, and no line before it names the interface. -/
def CreatedOnce (lines : List Piece) (x : String) : Prop :=
  ∃ before line after, lines = before ++ line :: after ∧ x ∈ line.creates ∧
    (∀ piece ∈ before, x ∉ piece.names) ∧ ∀ piece ∈ after, x ∉ piece.creates

theorem CreatedOnce.of_order {script : String → List Piece} {order : List String} (distinct : order.Nodup) (listed : c ∈ order)
    (first : script c = line :: rest) (makes : x ∈ line.creates) (alone : ∀ piece ∈ rest, x ∉ piece.creates)
    (others : ∀ v, v ≠ c → ∀ piece ∈ script v, x ∉ piece.creates)
    (later : ∀ v, v ≠ c → ∀ piece ∈ script v, x ∈ piece.names → order.idxOf c < order.idxOf v) :
    CreatedOnce (order.flatMap script) x := by
  obtain ⟨early, late, rfl⟩ := List.append_of_mem listed
  have apart := List.nodup_append.mp distinct
  refine ⟨early.flatMap script, line, rest ++ late.flatMap script, by simp [first], makes, ?_, ?_⟩
  · intro piece member named
    obtain ⟨v, inside, held⟩ := List.mem_flatMap.mp member
    have other : v ≠ c := apart.2.2 v inside c List.mem_cons_self
    exact absurd ((idxOf_split distinct).mpr inside) (later v other piece held named).not_gt
  · intro piece member
    rcases List.mem_append.mp member with own | next
    · exact alone piece own
    · obtain ⟨v, inside, held⟩ := List.mem_flatMap.mp next
      refine others v ?_ piece held
      rintro rfl
      exact (List.nodup_cons.mp apart.2.1).1 inside

/-- A piece that creates nothing, about the interface itself or the bridge that it
is a port of. -/
structure Adjusts (ifname : String) (cif : Ptr) (piece : Piece) : Prop where
  creates : piece.creates = []
  names : x ∈ piece.names →
    x = ifname ∨ (bridgePort cif).isNull = false ∧ x = str (lydxGetCattr (bridgePort cif) "bridge")

section Pieces
variable {dif cif : Ptr} {fixed skip : Bool} {op : Operation}

theorem Adjusts.own (creates : piece.creates = []) (names : piece.names ⊆ [ifname]) : Adjusts ifname cif piece :=
  ⟨creates, fun member => .inl (List.mem_singleton.mp (names member))⟩

theorem Adjusts.child (adjusts : Adjusts ifname cif' piece) (same : (lydChild cif').nodes = (lydChild cif).nodes) :
    Adjusts ifname cif piece := by
  refine ⟨adjusts.creates, fun {x} member => ?_⟩
  rw [← isNull_nodes (bridgePort_child same), ← lydxGetCattr_nodes "bridge" (bridgePort_child same)]
  exact adjusts.names member

theorem adjusts_autoconf (member : piece ∈ ipv6AutoconfPieces cif dif) : Adjusts ifname cif piece := by
  unfold ipv6AutoconfPieces at member
  split at member
  · simp at member
  · obtain rfl := List.mem_singleton.mp member
    exact .own rfl (by simp [Piece.names])
  · obtain rfl := List.mem_singleton.mp member
    exact .own rfl (by simp [Piece.names])

theorem adjusts_port (member : piece ∈ portPieces cif) : Adjusts ifname cif piece := by
  unfold portPieces at member
  split at member
  · rename_i port
    obtain rfl := List.mem_singleton.mp member
    exact ⟨rfl, fun named => .inr ⟨by simpa using port, by simpa [Piece.names] using named⟩⟩
  · simp at member

theorem adjusts_diffAddr (member : piece ∈ diffAddrPieces ifname addr) : Adjusts ifname cif piece := by
  unfold diffAddrPieces at member
  simp only at member
  rcases List.mem_append.mp member with del | add
  · split at del
    · obtain rfl := List.mem_singleton.mp del
      exact .own rfl (by simp [Piece.names])
    · simp at del
  · split at add
    · obtain rfl := List.mem_singleton.mp add
      exact .own rfl (by simp [Piece.names])
    · simp at add

theorem adjusts_address (member : piece ∈ addressPieces family cif dif) : Adjusts (ifaceName dif) cif piece := by
  unfold addressPieces at member
  simp only at member
  split at member
  · simp at member
  · split at member
    · obtain ⟨addr, _, rfl⟩ := List.mem_map.mp member
      exact .own rfl (by simp [Piece.names])
    · obtain ⟨addr, _, line⟩ := List.mem_flatMap.mp member
      exact adjusts_diffAddr line

theorem adjusts_up (member : piece ∈ upPieces dif cif) : Adjusts (ifaceName dif) cif piece := by
  unfold upPieces at member
  split at member
  · obtain rfl := List.mem_singleton.mp member
    exact .own rfl (by simp [Piece.names])
  · simp at member

/-- After the line that adds the link, a script only adjusts it. -/
theorem setup_adjusts (fixed skip : Bool) (quiet : op ≠ .create → ∀ piece ∈ setPieces dif cif, Adjusts (ifaceName dif) cif piece) :
    ∃ rest, setupPieces fixed skip op dif cif = (if !fixed && op = .create then addPieces skip cif else []) ++ rest ∧
      ∀ piece ∈ rest, Adjusts (ifaceName dif) cif piece := by
  unfold setupPieces
  simp only [List.append_assoc]
  refine ⟨_, rfl, fun piece member => ?_⟩
  simp only [List.mem_append] at member
  rcases member with down | mode | port | blank | adjusted | four | six | up
  · obtain rfl := List.mem_singleton.mp down
    exact .own rfl (by simp [Piece.names])
  · exact adjusts_autoconf mode
  · exact adjusts_port port
  · obtain rfl := List.mem_singleton.mp blank
    exact .own rfl (by simp [Piece.names])
  · split at adjusted
    · rename_i changed
      simp only [Bool.and_eq_true, decide_eq_true_eq] at changed
      exact quiet changed.2 piece adjusted
    · simp at adjusted
  · exact adjusts_address four
  · exact adjusts_address six
  · exact adjusts_up up

/-- The configuration from which an interface is set up. -/
def marked (dif cif : Ptr) : Ptr := if recreated dif cif then markCreated cif else cif

theorem marked_child (dif cif : Ptr) : (lydChild (marked dif cif)).nodes = (lydChild cif).nodes := by
  unfold marked
  split
  · exact markCreated_child cif
  · rfl

/-- A VLAN that is kept has no tag in its diff, since it would be created again. -/
theorem vlanLine_kept (alive : lydxGetOp dif ≠ .create) (kept : recreated dif cif = false)
    (present : dif.isNull = false) (type : hasType cif typeVlan = true) : vlanLine dif cif = [] := by
  have untagged : (outerTag dif).isNull = true := by
    rw [hasType_iff] at type
    simp [recreated, type, str, netdagMustDel, typeVlan, typeBridge] at kept
    exact (kept alive).2
  simp [vlanLine, present, untagged]

theorem adjusts_set (alive : lydxGetOp dif ≠ .create) (kept : recreated dif cif = false)
    (present : dif.isNull = false) (named : cif.isNull = false → ifaceName cif = ifaceName dif)
    (member : piece ∈ setPieces dif cif) : Adjusts (ifaceName dif) cif piece := by
  unfold setPieces at member
  split at member
  · rename_i type
    obtain rfl := List.mem_singleton.mp member
    rw [← named (cattr_not_null ((hasType_iff _ _).mp type))]
    exact .own rfl (by simp [Piece.names])
  · split at member
    · rename_i type
      simp [vlanLine_kept alive kept present type] at member
    · simp at member

/-- The link script of an interface, apart from the line that adds the link. -/
theorem init_adjusts (fixed skip : Bool) (alive : lydxGetOp dif ≠ .delete) (present : dif.isNull = false)
    (named : cif.isNull = false → ifaceName cif = ifaceName dif) :
    ∃ rest, initPieces fixed skip dif cif =
        (if !fixed && created dif cif then addPieces skip (marked dif cif) else []) ++ rest ∧
      ∀ piece ∈ rest, Adjusts (ifaceName dif) cif piece := by
  unfold initPieces
  cases again : recreated dif cif with
  | true =>
    have same : ifaceName (markCreated cif) = ifaceName dif := by
      refine (markCreated_name cif).trans (named ?_)
      rcases recreated_type again with vlan | veth
      · exact cattr_not_null vlan
      · exact cattr_not_null veth
    have fresh (other : Operation.create ≠ .create) (piece : Piece)
        (_ : piece ∈ setPieces (markCreated cif) (markCreated cif)) :
        Adjusts (ifaceName (markCreated cif)) (markCreated cif) piece := absurd rfl other
    obtain ⟨rest, pieces, adjusts⟩ := setup_adjusts fixed skip fresh
    refine ⟨rest, ?_, fun piece member => ?_⟩
    · simpa [created, alive, again, marked] using pieces
    · exact same ▸ (adjusts piece member).child (markCreated_child cif)
  | false =>
    have kept (other : lydxGetOp dif ≠ .create) (piece : Piece) (member : piece ∈ setPieces dif cif) :
        Adjusts (ifaceName dif) cif piece := adjusts_set other again present named member
    obtain ⟨rest, pieces, adjusts⟩ := setup_adjusts fixed skip kept
    refine ⟨rest, ?_, adjusts⟩
    simpa [created, again, marked] using pieces

end Pieces

section Added
variable {skip : Bool} {dif cif cif' : Ptr}

theorem add_bridge (type : lydxGetCattr cif "type" = some typeBridge) :
    addPieces skip cif = [.linkAddBridge (ifaceName cif) (netdagGetBridgeFwdMask cif)] := by
  simp [addPieces, hasType, type]

theorem add_veth (type : lydxGetCattr cif "type" = some typeVeth) :
    addPieces skip cif = if skip then [] else [.linkAddVeth (ifaceName cif) (vethPeer cif)] := by
  simp [addPieces, hasType, type, typeBridge, typeVeth]

theorem add_vlan (type : lydxGetCattr cif "type" = some typeVlan) :
    addPieces skip cif = if (outerTag cif).isNull then [] else
      vlanPieces (ifaceName cif) (lydxGetCattr cif "parent-interface") (outerTag cif) := by
  simp [addPieces, hasType, type, typeBridge, typeVeth, typeVlan, vlanLine, Ptr.null, Ptr.isNull]

/-- The line that adds a VLAN says no more about interfaces after its first piece. -/
theorem vlan_pieces (ifname : String) (parent : Option String) (otag : Ptr) :
    ∃ tail, vlanPieces ifname parent otag = .linkAddVlan ifname parent :: tail ∧
      ∀ piece ∈ tail, piece.creates = [] ∧ piece.names = [] := by
  simp only [vlanPieces, List.cons_append]
  refine ⟨_, rfl, fun piece member => ?_⟩
  simp only [List.mem_append] at member
  rcases member with (proto | id) | blank
  · split at proto
    · obtain rfl := List.mem_singleton.mp proto
      exact ⟨rfl, rfl⟩
    · simp at proto
  · split at id
    · obtain rfl := List.mem_singleton.mp id
      exact ⟨rfl, rfl⟩
    · simp at id
  · obtain rfl := List.mem_singleton.mp blank
    exact ⟨rfl, rfl⟩

theorem creates_names (piece : Piece) : piece.creates ⊆ piece.names := by
  cases piece with
  | linkAddVlan ifname parent => simp [Piece.creates, Piece.names]
  | _ => simp [Piece.creates, Piece.names]

theorem add_typed (member : piece ∈ addPieces skip cif) : ∃ iftype, lydxGetCattr cif "type" = some iftype := by
  cases type : lydxGetCattr cif "type" with
  | none => simp [addPieces, hasType, type] at member
  | some iftype => exact ⟨iftype, rfl⟩

/-- What the lines that add a link name, besides the link itself. -/
theorem add_names (member : piece ∈ addPieces skip cif) (named : x ∈ piece.names) :
    x = ifaceName cif ∨
      (lydxGetCattr cif "type" = some typeVlan ∧ x = str (lydxGetCattr cif "parent-interface") ∧ x ∉ piece.creates) ∨
      lydxGetCattr cif "type" = some typeVeth ∧ skip = false ∧ x = str (vethPeer cif) := by
  by_cases bridge : lydxGetCattr cif "type" = some typeBridge
  · rw [add_bridge bridge, List.mem_singleton] at member
    subst member
    exact .inl (List.mem_singleton.mp named)
  by_cases veth : lydxGetCattr cif "type" = some typeVeth
  · rw [add_veth veth] at member
    cases skip with
    | true => simp at member
    | false =>
      obtain rfl := List.mem_singleton.mp member
      rcases List.mem_pair.mp named with own | peer
      · exact .inl own
      · exact .inr (.inr ⟨veth, rfl, peer⟩)
  by_cases vlan : lydxGetCattr cif "type" = some typeVlan
  · rw [add_vlan vlan] at member
    split at member
    · simp at member
    · obtain ⟨tail, pieces, quiet⟩ := vlan_pieces (ifaceName cif) (lydxGetCattr cif "parent-interface") (outerTag cif)
      rw [pieces] at member
      rcases List.mem_cons.mp member with rfl | later
      · by_cases own : x = ifaceName cif
        · exact .inl own
        · refine .inr (.inl ⟨vlan, ?_, by simpa [Piece.creates] using own⟩)
          simpa [Piece.names, own] using named
      · simp [(quiet piece later).2] at named
  · simp [addPieces, hasType, bridge, veth, vlan] at member

end Added

/-- The link script of an interface in the generation in preparation. -/
def Net.initScript (net : Net) (v : String) : List Piece :=
  scriptPieces net.world.tree (scriptOf net.generations .init v (50, "init.ip"))

/-- A bottom-up order of the dag in preparation. -/
structure BottomUp (net : Net) (order : List String) : Prop where
  distinct : order.Nodup
  nodes : (net.nextDag [v]).isSome → v ∈ order
  sorted : (net.nextDag [a, b]).isSome → order.idxOf b < order.idxOf a

/-- The entries of the dag are checked one by one. -/
theorem BottomUp.of_paths (distinct : order.Nodup)
    (nodes : ∀ q ∈ net.world.tree.paths, [genName net.generations, "dag"] <+: q → q.length = 3 →
      q.getD 2 "" ∈ order)
    (sorted : ∀ q ∈ net.world.tree.paths, [genName net.generations, "dag"] <+: q → q.length = 4 →
      order.idxOf (q.getD 3 "") < order.idxOf (q.getD 2 "")) : BottomUp net order where
  distinct := distinct
  nodes := fun present => nodes _ (mem_paths.mpr present) ⟨_, rfl⟩ rfl
  sorted := fun present => sorted _ (mem_paths.mpr present) ⟨_, rfl⟩ rfl

section Scripts
variable {base : String} {before mid : Net} {change : Change} {plan : Plan} {u : Base Piece}
  {step : Ptr × Bool} {v x : String} {piece : Piece}

theorem Accepted.init_script (accepted : Accepted base before change plan u mid)
    (names : NamesIn Plain change.cfg change.diff) (unique : ((ifaces change.diff).map ifaceName).Nodup)
    (listed : step ∈ plan) : mid.initScript (ifaceName step.1) =
      if lydxGetOp step.1 = .delete then [] else
        initPieces (isFixed before.kernel (ifaceName step.1)) step.2 step.1
          (findCif (interfacesOf change.cfg) step.1) := by
  have made := accepted.generated
  rw [Net.initScript, accepted.count, made.script_pieces (by decide) (accepted.fresh (by simp [sideGen])),
    content_planned names (by decide) (made.names ▸ unique) listed, stepActs]
  split
  · rename_i gone
    rw [ifaceActs, if_pos gone, content, followed_silent]
    · rfl
    · simp [delActs, Act.file]
  · rename_i alive
    rw [content_init alive _ _ (findCif_name _ _) (names.found _)]
    rfl

theorem Accepted.init_unplanned (accepted : Accepted base before change plan u mid)
    (names : NamesIn Plain change.cfg change.diff) (missing : v ∉ plan.map fun step => ifaceName step.1) :
    mid.initScript v = [] := by
  have made := accepted.generated
  rw [Net.initScript, accepted.count, made.script_pieces (by decide) (accepted.fresh (by simp [sideGen])),
    content_unplanned names (by decide) missing]
  rfl

/-- The step of a veth that adds the pair for both ends. -/
structure AddsPair (kernel : Kernel) (cfg : List Node) (plan : Plan) (step : Ptr × Bool) (peer : String) : Prop where
  listed : step ∈ plan
  adds : AddsVeth kernel cfg step
  first : step.2 = false
  peer : vethPeer (findCif (interfacesOf cfg) step.1) = some peer

/-- A line of a script that names another interface has asked for an edge to it,
or adds a pair of which it is the other end. -/
theorem Accepted.init_names (accepted : Accepted base before change plan u mid)
    (names : NamesIn Plain change.cfg change.diff) (valid : Valid change.cfg)
    (unique : ((ifaces change.diff).map ifaceName).Nodup) (member : piece ∈ mid.initScript v)
    (named : x ∈ piece.names) : x = v ∨ ((mid.nextDag [v, x]).isSome ∧ x ∉ piece.creates) ∨
      ∃ step, AddsPair before.kernel change.cfg plan step x ∧ ifaceName step.1 = v := by
  by_cases planned : v ∈ plan.map fun step => ifaceName step.1
  swap
  · simp [accepted.init_unplanned names planned] at member
  obtain ⟨step, listed, rfl⟩ := List.mem_map.mp planned
  rw [accepted.init_script names unique listed] at member
  split at member
  · simp at member
  rename_i alive
  have changed : step.1 ∈ ifaces change.diff := accepted.generated.all ▸ List.mem_map_of_mem listed
  have name := findCif_name (interfacesOf change.cfg) step.1
  have asked {dependee : String} (dep : .dep (ifaceName step.1) dependee ∈
      stepActs mid.world.handle before.kernel (interfacesOf change.cfg) step) :
      (mid.nextDag [ifaceName step.1, dependee]).isSome :=
    accepted.edge_iff.mpr (List.mem_flatMap.mpr ⟨step, listed, dep⟩)
  obtain ⟨rest, pieces, adjusts⟩ := init_adjusts (isFixed before.kernel (ifaceName step.1)) step.2 alive
    (lyxListForEach_not_null changed) name
  rw [pieces] at member
  rcases List.mem_append.mp member with head | later
  · split at head
    swap
    · simp at head
    rename_i fresh
    simp only [Bool.and_eq_true, Bool.not_eq_true'] at fresh
    have child := marked_child step.1 (findCif (interfacesOf change.cfg) step.1)
    obtain ⟨iftype, typed⟩ := add_typed head
    rw [cattr_child child] at typed
    have same := (ifaceName_child child).trans (name (cattr_not_null typed))
    rcases add_names head named with own | ⟨type, parent, other⟩ | ⟨type, first, peer⟩
    · exact .inl (own.trans same)
    · rw [cattr_child child] at type parent
      have dep := ifaceActs_vlan alive type mid.world.handle step.2
      rw [name (cattr_not_null typed), ← parent, ← fresh.1] at dep
      exact .inr (.inl ⟨asked dep, other⟩)
    · rw [cattr_child child] at type
      rw [vethPeer_child child] at peer
      have adds : AddsVeth before.kernel change.cfg step := ⟨type, fresh.2, fresh.1⟩
      obtain ⟨other, _, known, _⟩ := valid.peer adds.member type
      rw [known] at peer
      exact .inr (.inr ⟨step, ⟨listed, adds, first, known.trans (congrArg some peer.symm)⟩, rfl⟩)
  · rcases (adjusts piece later).names named with own | ⟨port, bridge⟩
    · exact .inl own
    · refine .inr (.inl ⟨?_, by simp [(adjusts piece later).creates]⟩)
      have dep := ifaceActs_port alive port mid.world.handle (isFixed before.kernel (ifaceName step.1)) step.2
      rw [name (descendant_not_null port), ← bridge] at dep
      exact asked dep

/-- The line at the head of a script is the only one to create its interface, if
no other end of a pair does so. -/
theorem Accepted.created_once (accepted : Accepted base before change plan u mid)
    (names : NamesIn Plain change.cfg change.diff) (valid : Valid change.cfg)
    (unique : ((ifaces change.diff).map ifaceName).Nodup) (bottomUp : BottomUp mid order)
    (listed : c ∈ order) (first : mid.initScript c = line :: rest) (makes : x ∈ line.creates)
    (alone : ∀ piece ∈ rest, x ∉ piece.creates)
    (only : ∀ step, AddsPair before.kernel change.cfg plan step x → ifaceName step.1 = c)
    (own : x ≠ c → (∀ piece ∈ mid.initScript x, x ∉ piece.creates) ∧ (mid.nextDag [x, c]).isSome) :
    CreatedOnce (order.flatMap mid.initScript) x := by
  refine .of_order bottomUp.distinct listed first makes alone ?_ ?_
  · intro v other piece member created
    rcases accepted.init_names names valid unique member (creates_names piece created) with
      rfl | ⟨_, not⟩ | ⟨step, adds, rfl⟩
    · exact (own other).1 piece member created
    · exact not created
    · exact other (only step adds)
  · intro v other piece member named
    rcases accepted.init_names names valid unique member named with rfl | ⟨edge, _⟩ | ⟨step, adds, rfl⟩
    · exact bottomUp.sorted (own other).2
    · have after := bottomUp.sorted edge
      by_cases same : x = c
      · exact same ▸ after
      · exact (bottomUp.sorted (own same).2).trans after
    · exact absurd (only step adds) other

/-- Of two ends of a pair only one adds it. -/
theorem AddsPair.once (made : Generated d k kernel cfg diff plan t w z) (skips : SkipFiles k t fun _ => False)
    (valid : Valid cfg) (unique : ((ifaces diff).map ifaceName).Nodup)
    (one : AddsPair kernel cfg plan step (ifaceName other.1)) (two : AddsPair kernel cfg plan other (ifaceName step.1)) :
    step = other := by
  by_contra apart
  have earlier {step other : Ptr × Bool} (one : AddsPair kernel cfg plan step (ifaceName other.1))
      (two : AddsPair kernel cfg plan other (ifaceName step.1)) (inside : ∃ before after,
        plan = before ++ step :: after ∧ other ∈ before) : False := by
    obtain ⟨before, after, rfl, member⟩ := inside
    have skipped := (made.skipped_iff skips valid unique one.adds).mpr ⟨other, member, two.adds, one.peer⟩
    simp [one.first] at skipped
  obtain ⟨before, after, split⟩ := List.append_of_mem one.listed
  have place := two.listed
  rw [split, List.mem_append, List.mem_cons] at place
  rcases place with early | rfl | late
  · exact earlier one two ⟨before, after, split, early⟩
  · exact apart rfl
  · obtain ⟨between, last, rfl⟩ := List.append_of_mem late
    exact earlier two one ⟨before ++ step :: between, last, by simp [split], by simp⟩

end Scripts

/-- The transaction adds the link of an interface, for the first time or again. -/
structure Adds (kernel : Kernel) (change : Change) (dif cif : Ptr) : Prop where
  changed : dif ∈ ifaces change.diff
  member : cif ∈ ifaces change.cfg
  same : ifaceName dif = ifaceName cif
  fresh : created dif cif = true
  dynamic : isFixed kernel (ifaceName cif) = false

section Creators
variable {base : String} {before mid : Net} {change : Change} {plan : Plan} {u : Base Piece}
  {step : Ptr × Bool} {cif : Ptr}

/-- The script of an interface that is added begins with the line for its link. -/
theorem Accepted.added_script (accepted : Accepted base before change plan u mid)
    (names : NamesIn Plain change.cfg change.diff) (unique : ((ifaces change.diff).map ifaceName).Nodup)
    (listed : step ∈ plan) (adds : Adds before.kernel change step.1 cif)
    (found : findCif (interfacesOf change.cfg) step.1 = cif) :
    ∃ rest, mid.initScript (ifaceName cif) = addPieces step.2 (marked step.1 cif) ++ rest ∧
      ∀ piece ∈ rest, piece.creates = [] := by
  have alive : lydxGetOp step.1 ≠ .delete := by
    intro gone
    simpa [created, gone] using adds.fresh
  obtain ⟨rest, pieces, adjusts⟩ := init_adjusts (isFixed before.kernel (ifaceName step.1)) step.2 alive
    (lyxListForEach_not_null adds.changed) fun _ => adds.same.symm
  refine ⟨rest, ?_, fun piece member => (adjusts piece member).creates⟩
  rw [← adds.same, accepted.init_script names unique listed, if_neg alive, found, pieces, adds.same, adds.dynamic,
    adds.fresh]
  rfl

theorem AddsPair.veth (pair : AddsPair kernel cfg plan step (ifaceName cif)) (valid : Valid cfg)
    (member : cif ∈ ifaces cfg) : lydxGetCattr cif "type" = some typeVeth := by
  obtain ⟨other, listed, named, type, _⟩ := valid.peer pair.adds.member pair.adds.type
  rw [pair.peer, Option.some.injEq] at named
  rw [List.inj_on_of_nodup_map valid.unique member listed named, type]

theorem Adds.veth (adds : Adds kernel change step.1 cif) (found : findCif (interfacesOf change.cfg) step.1 = cif)
    (type : lydxGetCattr cif "type" = some typeVeth) : AddsVeth kernel change.cfg step :=
  ⟨by rw [found, type], by rw [found, adds.fresh], by rw [adds.same, adds.dynamic]⟩

theorem AddsVeth.adds (veth : AddsVeth kernel change.cfg step) (changed : step.1 ∈ ifaces change.diff) :
    Adds kernel change step.1 (findCif (interfacesOf change.cfg) step.1) :=
  ⟨changed, veth.member, veth.name.symm, veth.fresh, by rw [veth.name, veth.dynamic]⟩

theorem Accepted.node (accepted : Accepted base before change plan u mid) (member : cif ∈ ifaces change.cfg) :
    (mid.nextDag [ifaceName cif]).isSome := by
  rw [Net.nextDag, accepted.count, accepted.generated.node (List.mem_append_left _ member)]
  rfl

section Kinds
variable (accepted : Accepted base before change plan u mid) (names : NamesIn Plain change.cfg change.diff)
  (valid : Valid change.cfg) (unique : ((ifaces change.diff).map ifaceName).Nodup)
  (planned : step ∈ plan) (adds : Adds before.kernel change step.1 cif)
  (found : findCif (interfacesOf change.cfg) step.1 = cif)
include accepted names valid unique planned adds found

theorem Accepted.created_bridge (bottomUp : BottomUp mid order) (listed : ifaceName cif ∈ order)
    (type : lydxGetCattr cif "type" = some typeBridge) :
    CreatedOnce (order.flatMap mid.initScript) (ifaceName cif) := by
  have child := marked_child step.1 cif
  obtain ⟨rest, script, alone⟩ := accepted.added_script names unique planned adds found
  rw [add_bridge ((cattr_child child _).trans type), ifaceName_child child] at script
  refine accepted.created_once names valid unique bottomUp listed script List.mem_cons_self ?_ ?_
    fun apart => absurd rfl apart
  · intro piece later
    simp [alone piece later]
  · intro other pair
    simp [pair.veth valid adds.member, typeVeth, typeBridge] at type

theorem Accepted.created_vlan (bottomUp : BottomUp mid order) (listed : ifaceName cif ∈ order)
    (type : lydxGetCattr cif "type" = some typeVlan) :
    CreatedOnce (order.flatMap mid.initScript) (ifaceName cif) ↔ (outerTag cif).isNull = false := by
  have child := marked_child step.1 cif
  have tag : (outerTag (marked step.1 cif)).isNull = (outerTag cif).isNull :=
    isNull_nodes (lydxGetDescendant_nodes _ child)
  have only (other : Ptr × Bool) (pair : AddsPair before.kernel change.cfg plan other (ifaceName cif)) : False := by
    simp [pair.veth valid adds.member, typeVeth, typeVlan] at type
  obtain ⟨rest, script, alone⟩ := accepted.added_script names unique planned adds found
  rw [add_vlan ((cattr_child child _).trans type), tag, ifaceName_child child] at script
  cases untagged : (outerTag cif).isNull with
  | false =>
    obtain ⟨tail, pieces, quiet⟩ := vlan_pieces (ifaceName cif)
      (lydxGetCattr (marked step.1 cif) "parent-interface") (outerTag (marked step.1 cif))
    rw [untagged, if_neg (by simp), pieces, List.cons_append] at script
    refine iff_of_true (accepted.created_once names valid unique bottomUp listed script List.mem_cons_self ?_
      (fun other pair => (only other pair).elim) fun apart => absurd rfl apart) rfl
    intro piece later
    rcases List.mem_append.mp later with line | after
    · simp [(quiet piece line).1]
    · simp [alone piece after]
  | true =>
    -- Nothing creates the link: its own script does not, and no other could.
    rw [untagged, if_pos rfl, List.nil_append] at script
    refine iff_of_false ?_ (by simp)
    rintro ⟨early, line, late, split, makes, _⟩
    have member : line ∈ order.flatMap mid.initScript := by simp [split]
    obtain ⟨v, _, held⟩ := List.mem_flatMap.mp member
    rcases accepted.init_names names valid unique held (creates_names line makes) with
      rfl | ⟨_, not⟩ | ⟨other, pair, _⟩
    · rw [script] at held
      simp [alone line held] at makes
    · exact not makes
    · exact only other pair

omit valid in
/-- The script of an end that is not skipped begins with the line for the pair. -/
theorem Accepted.pair_script (type : lydxGetCattr cif "type" = some typeVeth) :
    ∃ rest, mid.initScript (ifaceName cif) =
        (if step.2 then [] else [.linkAddVeth (ifaceName cif) (vethPeer cif)]) ++ rest ∧
      ∀ piece ∈ rest, piece.creates = [] := by
  have child := marked_child step.1 cif
  obtain ⟨rest, script, alone⟩ := accepted.added_script names unique planned adds found
  rw [add_veth ((cattr_child child _).trans type), ifaceName_child child, vethPeer_child child] at script
  exact ⟨rest, script, alone⟩

omit names in
/-- An end is skipped if the other comes first, which then adds the pair. -/
theorem Accepted.pair_first (type : lydxGetCattr cif "type" = some typeVeth) (skipped : step.2 = true) :
    ∃ other, AddsPair before.kernel change.cfg plan other (ifaceName cif) ∧
      ((ifaces change.diff).map ifaceName).idxOf (ifaceName other.1) <
        ((ifaces change.diff).map ifaceName).idxOf (ifaceName cif) := by
  have made := accepted.generated
  have own := adds.veth found type
  obtain ⟨early, late, rfl⟩ := List.append_of_mem planned
  obtain ⟨other, member, asked⟩ := List.mem_flatMap.mp ((made.answer accepted.skips own).mp skipped)
  obtain ⟨others, first, peer⟩ := AddsVeth.of_skip asked
  obtain ⟨end', _, named, _⟩ := valid.peer others.member others.type
  rw [named] at peer
  refine ⟨other, ⟨List.mem_append_left _ member, others, first, ?_⟩, ?_⟩
  · rw [named, ← adds.same, peer]
    rfl
  · rw [← made.names, List.map_append, List.map_cons] at unique ⊢
    rw [← adds.same]
    exact (idxOf_split unique).mpr (List.mem_map_of_mem member)

theorem Accepted.created_veth (bottomUp : BottomUp mid order) (type : lydxGetCattr cif "type" = some typeVeth) :
    CreatedOnce (order.flatMap mid.initScript) (ifaceName cif) := by
  have made := accepted.generated
  have own := adds.veth found type
  have listed {iface : Ptr} (member : iface ∈ ifaces change.cfg) : ifaceName iface ∈ order :=
    bottomUp.nodes (accepted.node member)
  obtain ⟨rest, script, alone⟩ := accepted.pair_script names unique planned adds found type
  have peers {other : Ptr × Bool} (pair : AddsPair before.kernel change.cfg plan other (ifaceName cif)) :
      vethPeer cif = some (ifaceName other.1) := by
    rw [← found]
    exact own.mutual_peer pair.adds valid (adds.same ▸ pair.peer)
  cases skipped : step.2 with
  | false =>
    rw [skipped] at script
    refine accepted.created_once names valid unique bottomUp (listed adds.member) script List.mem_cons_self ?_ ?_
      fun apart => absurd rfl apart
    · intro piece later
      simp [alone piece later]
    · intro other pair
      have one : AddsPair before.kernel change.cfg plan step (ifaceName other.1) :=
        ⟨planned, own, skipped, by rw [found, peers pair]⟩
      rw [← one.once made accepted.skips valid unique (adds.same ▸ pair), adds.same]
  | true =>
    rw [skipped, if_pos rfl, List.nil_append] at script
    obtain ⟨other, pair, _⟩ := accepted.pair_first valid unique planned adds found type skipped
    have second := pair.adds.adds (made.all ▸ List.mem_map_of_mem pair.listed)
    obtain ⟨more, first, alone'⟩ := accepted.pair_script names unique pair.listed second rfl pair.adds.type
    rw [pair.first, pair.peer] at first
    refine accepted.created_once names valid unique bottomUp (listed second.member) first ?_ ?_ ?_ ?_
    · simp [Piece.creates, str]
    · intro piece later
      simp [alone' piece later]
    · intro third another
      rw [← second.same, ← Option.some.injEq, ← peers another, ← peers pair]
    · intro _
      refine ⟨fun piece member => ?_, accepted.edge_iff.mpr (List.mem_flatMap.mpr ⟨step, planned, ?_⟩)⟩
      · rw [script] at member
        simp [alone piece member]
      · obtain ⟨early, late, asks, _⟩ := veth_iface own.type own.fresh mid.world.handle step.2
        rw [own.dynamic, asks, skipped, found]
        simp [vethActs, peers pair, str, second.same]

end Kinds

end Creators

/-- Every link that a transaction adds is created by a single line, which comes
before all other lines that name it, in every bottom-up order of the new dag. The
only exception is a VLAN that is given no tag. A veth pair is created by the end
that comes first in the diff. -/
theorem created_once_iff (base : String) (nonempty : base ≠ "") (literal : Literal base) (s : Running)
    (commits : Commits base NamesPlain s) (change : Change) (names : NamesPlain s change)
    (valid : Valid change.cfg) (unique : ((ifaces change.diff).map ifaceName).Nodup) (mid : Net)
    (accepted : ifchange base change s.net = (.ok, mid)) (order : List String) (bottomUp : BottomUp mid order)
    (dif cif : Ptr) (adds : Adds s.net.kernel change dif cif)
    (kind : lydxGetCattr cif "type" = some typeBridge ∨ lydxGetCattr cif "type" = some typeVlan ∨
      lydxGetCattr cif "type" = some typeVeth) :
    (CreatedOnce (order.flatMap mid.initScript) (ifaceName cif) ↔
      (lydxGetCattr cif "type" = some typeVlan → (outerTag cif).isNull = false)) ∧
    ∀ peer, lydxGetCattr cif "type" = some typeVeth → vethPeer cif = some peer →
      ((ifaces change.diff).map ifaceName).idxOf (ifaceName cif) < ((ifaces change.diff).map ifaceName).idxOf peer →
      .linkAddVeth (ifaceName cif) (some peer) ∈ mid.initScript (ifaceName cif) := by
  have steady := commits.steady nonempty literal fun _ _ plain => plain
  obtain ⟨plan, u, filled⟩ := steady.accepted names accepted
  have listed : ifaceName cif ∈ order := bottomUp.nodes (filled.node adds.member)
  have changed := adds.changed
  rw [← filled.generated.all] at changed
  obtain ⟨step, planned, rfl⟩ := List.mem_map.mp changed
  have found := findCif_eq valid.unique adds.member adds.same
  constructor
  · rcases kind with bridge | vlan | veth
    · refine iff_of_true (filled.created_bridge names valid unique planned adds found bottomUp listed bridge) ?_
      simp [bridge, typeBridge, typeVlan]
    · rw [filled.created_vlan names valid unique planned adds found bottomUp listed vlan]
      simp [vlan]
    · refine iff_of_true (filled.created_veth names valid unique planned adds found bottomUp veth) ?_
      simp [veth, typeVeth, typeVlan]
  · intro peer veth named earlier
    obtain ⟨rest, script, _⟩ := filled.pair_script names unique planned adds found veth
    cases skipped : step.2 with
    | false => simp [script, skipped, named]
    | true =>
      obtain ⟨other, pair, before⟩ := filled.pair_first valid unique planned adds found veth skipped
      have back := (adds.veth found veth).mutual_peer pair.adds valid (adds.same ▸ pair.peer)
      rw [found, named, Option.some.injEq] at back
      exact absurd before (back ▸ earlier).not_gt

/-- Two bridges that are joined by a veth pair, and a port. -/
def dualBridge : List Node := interfaces
  [ifaceEntry "br0" typeBridge [], ifaceEntry "br1" typeBridge [],
    ifaceEntry "veth0a" typeVeth [.inner "veth" [] .plain [.leaf "peer" "veth0b" false .plain],
      .inner "bridge-port" [] .plain [.leaf "bridge" "br0" false .plain]],
    ifaceEntry "veth0b" typeVeth [.inner "veth" [] .plain [.leaf "peer" "veth0a" false .plain],
      .inner "bridge-port" [] .plain [.leaf "bridge" "br1" false .plain]],
    ifaceEntry "eth0" "iana-if-type:ethernetCsmacd"
      [.inner "bridge-port" [] .plain [.leaf "bridge" "br0" false .plain]]]

def dualBridged : Net := (ifchange "/run/net" (changeTo [] dualBridge) (Running.boot twoPorts).net).2

/-- The second end of the pair is created by the script of the first. -/
theorem created_once_iff_dual_bridge :
    CreatedOnce (["br0", "br1", "veth0a", "veth0b", "eth0"].flatMap dualBridged.initScript) "veth0b" ∧
    .linkAddVeth "veth0a" (some "veth0b") ∈ dualBridged.initScript "veth0a" := by
  have ok : (ifchange "/run/net" (changeTo [] dualBridge) (Running.boot twoPorts).net).1 = .ok := by decide +kernel
  have accepted : ifchange "/run/net" (changeTo [] dualBridge) (Running.boot twoPorts).net = (.ok, dualBridged) := by
    rw [dualBridged, ← ok]
  have names : NamesIn Plain (changeTo [] dualBridge).cfg (changeTo [] dualBridge).diff := by decide +kernel
  have valid : Valid (changeTo [] dualBridge).cfg := by decide +kernel
  have unique : ((ifaces (changeTo [] dualBridge).diff).map ifaceName).Nodup := by decide +kernel
  have bottomUp : BottomUp dualBridged ["br0", "br1", "veth0a", "veth0b", "eth0"] :=
    .of_paths (by decide) (by decide +kernel) (by decide +kernel)
  have once := created_once_iff "/run/net" (by decide) (by decide) (.boot twoPorts) (.boot twoPorts)
    (changeTo [] dualBridge) names valid unique dualBridged accepted _ bottomUp
  have ends : ∀ name ∈ ["veth0a", "veth0b"], ∃ dif ∈ ifaces (changeTo [] dualBridge).diff,
      ∃ cif ∈ ifaces (changeTo [] dualBridge).cfg, ifaceName cif = name ∧ ifaceName dif = ifaceName cif ∧
        created dif cif = true ∧ isFixed (Running.boot twoPorts).net.kernel (ifaceName cif) = false ∧
        lydxGetCattr cif "type" = some typeVeth ∧ (name = "veth0a" → vethPeer cif = some "veth0b") := by
    decide +kernel
  have first : ((ifaces (changeTo [] dualBridge).diff).map ifaceName).idxOf "veth0a" <
      ((ifaces (changeTo [] dualBridge).diff).map ifaceName).idxOf "veth0b" := by decide +kernel
  constructor
  · obtain ⟨dif, changed, cif, member, name, same, fresh, dynamic, type, _⟩ := ends "veth0b" (by simp)
    have created := (once dif cif ⟨changed, member, same, fresh, dynamic⟩ (.inr (.inr type))).1
    rw [name] at created
    exact created.mpr (by simp [type, typeVeth, typeVlan])
  · obtain ⟨dif, changed, cif, member, name, same, fresh, dynamic, type, peer⟩ := ends "veth0a" (by simp)
    have line := (once dif cif ⟨changed, member, same, fresh, dynamic⟩ (.inr (.inr type))).2 "veth0b" type (peer rfl)
    rw [name] at line
    exact line first

/-- A VLAN with a parent and no encapsulation. -/
def untaggedVlan : List Node := interfaces
  [ifaceEntry "eth0" "iana-if-type:ethernetCsmacd" [],
    ifaceEntry "vlan1" typeVlan [.leaf "parent-interface" "eth0" false .plain]]

/-- The configuration is valid and its transaction is accepted, but nothing creates
the VLAN. -/
theorem untagged_vlan_not_created :
    let changed := ifchange "/run/net" (changeTo [] untaggedVlan) (Running.boot twoPorts).net
    Valid untaggedVlan ∧ changed.1 = .ok ∧ BottomUp changed.2 ["eth0", "vlan1"] ∧
      (∃ dif ∈ ifaces (changeTo [] untaggedVlan).diff, ifaceName dif = "vlan1" ∧ lydxGetOp dif = .create) ∧
      ["eth0", "vlan1"].flatMap changed.2.initScript =
        [.linkSetDown "eth0", .addrgenmode "none", .newline, .linkSetUp "eth0",
          .linkSetDown "vlan1", .addrgenmode "none", .newline, .linkSetUp "vlan1"] ∧
      ¬CreatedOnce (["eth0", "vlan1"].flatMap changed.2.initScript) "vlan1" := by
  intro changed
  have bottomUp : BottomUp changed.2 ["eth0", "vlan1"] :=
    .of_paths (by decide) (by decide +kernel) (by decide +kernel)
  have lines : ["eth0", "vlan1"].flatMap changed.2.initScript =
        [.linkSetDown "eth0", .addrgenmode "none", .newline, .linkSetUp "eth0",
          .linkSetDown "vlan1", .addrgenmode "none", .newline, .linkSetUp "vlan1"] := by
    decide +kernel
  refine ⟨by decide +kernel, by decide +kernel, bottomUp, by decide +kernel, lines, ?_⟩
  rw [lines]
  rintro ⟨before, line, after, split, makes, _⟩
  have none : ∀ piece ∈ [Piece.linkSetDown "eth0", .addrgenmode "none", .newline, .linkSetUp "eth0",
          .linkSetDown "vlan1", .addrgenmode "none", .newline, .linkSetUp "vlan1"], piece.creates = [] := by decide
  rw [none line (split ▸ by simp)] at makes
  simp at makes

end Netdag
