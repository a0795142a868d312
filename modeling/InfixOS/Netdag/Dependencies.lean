import InfixOS.Netdag.Stacking

/-! The dependencies of a valid configuration. Every edge of a generation is one of
them, and they can only be cyclic among VLANs or among bridges. -/
namespace Netdag
open Core Dagger Exec Lyx Posix Posix.FileTree Yang

/-- The interface types that can be ports of a bridge. -/
def portTypes : List String :=
  [typeBridge, "iana-if-type:ethernetCsmacd", "iana-if-type:ieee8023adLag", "iana-if-type:ilan", typeVeth]

/-- What the YANG modules ask of the interfaces of a configuration: unique keys,
references that resolve, peers that refer to each other, and ports of bridges. -/
structure Valid (cfg : List Node) : Prop where
  unique : ((ifaces cfg).map ifaceName).Nodup
  parent : cif ∈ ifaces cfg → lydxGetCattr cif "type" = some typeVlan →
    ∃ lower ∈ ifaces cfg, lydxGetCattr cif "parent-interface" = some (ifaceName lower)
  peer : cif ∈ ifaces cfg → lydxGetCattr cif "type" = some typeVeth →
    ∃ other ∈ ifaces cfg, vethPeer cif = some (ifaceName other) ∧
      lydxGetCattr other "type" = some typeVeth ∧ vethPeer other = some (ifaceName cif)
  port : cif ∈ ifaces cfg → (bridgePort cif).isNull = false →
    (∃ iftype ∈ portTypes, lydxGetCattr cif "type" = some iftype) ∧
      ∃ bridge ∈ ifaces cfg, lydxGetCattr (bridgePort cif) "bridge" = some (ifaceName bridge) ∧
        lydxGetCattr bridge "type" = some typeBridge

instance (cfg : List Node) : Decidable (Valid cfg) :=
  decidable_of_iff
    (((ifaces cfg).map ifaceName).Nodup ∧
      (∀ cif ∈ ifaces cfg, lydxGetCattr cif "type" = some typeVlan →
        ∃ lower ∈ ifaces cfg, lydxGetCattr cif "parent-interface" = some (ifaceName lower)) ∧
      (∀ cif ∈ ifaces cfg, lydxGetCattr cif "type" = some typeVeth →
        ∃ other ∈ ifaces cfg, vethPeer cif = some (ifaceName other) ∧
          lydxGetCattr other "type" = some typeVeth ∧ vethPeer other = some (ifaceName cif)) ∧
      ∀ cif ∈ ifaces cfg, (bridgePort cif).isNull = false →
        (∃ iftype ∈ portTypes, lydxGetCattr cif "type" = some iftype) ∧
          ∃ bridge ∈ ifaces cfg, lydxGetCattr (bridgePort cif) "bridge" = some (ifaceName bridge) ∧
            lydxGetCattr bridge "type" = some typeBridge)
    ⟨fun h => ⟨h.1, h.2.1 _, h.2.2.1 _, h.2.2.2 _⟩,
      fun h => ⟨h.unique, fun _ => h.parent, fun _ => h.peer, fun _ => h.port⟩⟩

/-- What an interface needs: a VLAN its parent, a port its bridge, and the second
end of a veth pair the first, in the order in which interfaces are processed. -/
inductive Depends (cfg : List Node) (order : List String) : String → String → Prop
  | vlan (member : cif ∈ ifaces cfg) (type : lydxGetCattr cif "type" = some typeVlan)
      (parent : lydxGetCattr cif "parent-interface" = some b) : Depends cfg order (ifaceName cif) b
  | port (member : cif ∈ ifaces cfg) (bridge : lydxGetCattr (bridgePort cif) "bridge" = some b) :
      Depends cfg order (ifaceName cif) b
  | veth (member : cif ∈ ifaces cfg) (type : lydxGetCattr cif "type" = some typeVeth)
      (peer : vethPeer cif = some b) (second : order.idxOf b < order.idxOf (ifaceName cif)) :
      Depends cfg order (ifaceName cif) b

/-- The dependees of an interface, to be computed. -/
def dependees (order : List String) (cif : Ptr) : List String :=
  (if lydxGetCattr cif "type" = some typeVlan then (lydxGetCattr cif "parent-interface").toList else []) ++
    (lydxGetCattr (bridgePort cif) "bridge").toList ++
    if lydxGetCattr cif "type" = some typeVeth then
      (vethPeer cif).toList.filter fun b => order.idxOf b < order.idxOf (ifaceName cif) else []

theorem Depends.listed (depends : Depends cfg order a b) :
    ∃ cif ∈ ifaces cfg, ifaceName cif = a ∧ b ∈ dependees order cif := by
  cases depends with
  | vlan member type parent => exact ⟨_, member, rfl, by simp [dependees, type, parent]⟩
  | port member bridge => exact ⟨_, member, rfl, by simp [dependees, bridge]⟩
  | veth member type peer second => exact ⟨_, member, rfl, by simp [dependees, type, peer, second]⟩

/-- Why an edge is added for an interface with this configuration. -/
inductive Leans (cif : Ptr) (fresh skip : Bool) (b : String) : Prop
  | vlan (type : lydxGetCattr cif "type" = some typeVlan) (parent : b = str (lydxGetCattr cif "parent-interface"))
  | port (port : (bridgePort cif).isNull = false) (bridge : b = str (lydxGetCattr (bridgePort cif) "bridge"))
  | veth (type : lydxGetCattr cif "type" = some typeVeth) (created : fresh = true) (skipped : skip = true)
      (peer : b = str (vethPeer cif))

/-- Lines, services and settings are written to scripts. -/
theorem lines_file (member : act ∈ ipLines ifname pieces) : act.file ≠ none := by
  obtain ⟨piece, _, rfl⟩ := List.mem_map.mp member
  simp [Act.file]

theorem autoconf_file (member : act ∈ ipv4AutoconfActs d cif dif) : act.file ≠ none := by
  unfold ipv4AutoconfActs at member
  simp only at member
  split at member
  · simp at member
  · rcases List.mem_pair.mp member with rfl | rfl
    · simp [Act.file]
    · simp [Act.file]
  · split at member
    · simp at member
    · simp only [reloadActs, List.cons_append, List.nil_append, List.mem_cons, List.not_mem_nil, or_false] at member
      rcases member with rfl | rfl | rfl | rfl
      · simp [Act.file]
      · simp [Act.file]
      · simp [Act.file]
      · simp [Act.file]

theorem admin_file (member : act ∈ adminActs dif cif) : act.file ≠ none := by
  have forwarding (node : Ptr) (family : String) (line : act ∈ forwardingActs (ifaceName dif) node family) :
      act.file ≠ none := by
    unfold forwardingActs at line
    simp only at line
    split at line
    · simp at line
    · rw [List.mem_singleton.mp line]
      simp [Act.file]
  rcases List.mem_append.mp member with up | setting
  · split at up
    · exact lines_file up
    · simp at up
  · unfold sysctlActs at setting
    simp only at setting
    split at setting
    · simp at setting
    · rcases List.mem_cons.mp setting with rfl | line
      · simp [Act.file]
      · rcases List.mem_append.mp line with four | six
        · exact forwarding _ _ four
        · exact forwarding _ _ six

/-- Where a request that is not about a script comes from. -/
theorem setup_bare (bare : act.file = none) (member : act ∈ setupActs d fixed skip op dif cif) :
    (fixed = false ∧ op = .create ∧ act ∈ afspecAddActs skip cif) ∨ act ∈ bridgeActs cif ∨
      act ∈ afspecSetActs dif cif := by
  have line (pieces : List Piece) (member : act ∈ ipLines (ifaceName dif) pieces) : False :=
    lines_file member bare
  simp only [setupActs, linkActs, List.cons_append, List.mem_cons, List.mem_append] at member
  rcases member with rfl | (((((((added | down) | service) | mode) | port) | blank) | adjusted) | address) | admin
  · simp [Act.file] at bare
  · split at added
    · rename_i fresh
      simp only [Bool.and_eq_true, Bool.not_eq_true', decide_eq_true_eq] at fresh
      exact .inl ⟨fresh.1, fresh.2, added⟩
    · simp at added
  · exact (line _ down).elim
  · exact absurd bare (autoconf_file service)
  · exact (line _ mode).elim
  · exact .inr (.inl port)
  · exact (line _ blank).elim
  · split at adjusted
    · exact .inr (.inr adjusted)
    · simp at adjusted
  · exact (line _ address).elim
  · exact absurd bare (admin_file admin)

theorem dep_vlan (asked : .dep a b ∈ vlanActs dif cif) :
    a = ifaceName cif ∧ b = str (lydxGetCattr cif "parent-interface") := by
  simpa [vlanActs, ipLines] using asked

theorem dep_add (asked : .dep a b ∈ afspecAddActs skip cif) : a = ifaceName cif ∧ Leans cif true skip b := by
  unfold afspecAddActs at asked
  split at asked
  · simp [ipLines] at asked
  · split at asked
    · rename_i type
      simp only [vethActs, List.mem_cons, reduceCtorEq, false_or] at asked
      split at asked
      · rename_i skipped
        simp only [List.mem_singleton, Act.dep.injEq] at asked
        exact ⟨asked.1, .veth ((hasType_iff _ _).mp type) rfl skipped asked.2⟩
      · simp [ipLines] at asked
    · split at asked
      · rename_i type
        obtain ⟨name, parent⟩ := dep_vlan asked
        exact ⟨name, .vlan ((hasType_iff _ _).mp type) parent⟩
      · simp at asked

theorem dep_set (asked : .dep a b ∈ afspecSetActs dif cif) : a = ifaceName cif ∧ Leans cif fresh skip b := by
  unfold afspecSetActs at asked
  split at asked
  · simp [ipLines] at asked
  · split at asked
    · rename_i type
      obtain ⟨name, parent⟩ := dep_vlan asked
      exact ⟨name, .vlan ((hasType_iff _ _).mp type) parent⟩
    · simp at asked

theorem dep_bridge (asked : .dep a b ∈ bridgeActs cif) : a = ifaceName cif ∧ Leans cif fresh skip b := by
  unfold bridgeActs at asked
  simp only at asked
  split at asked
  · rename_i port
    rcases List.mem_append.mp asked with line | dep
    · simp [ipLines] at line
    · simp only [List.mem_singleton, Act.dep.injEq] at dep
      exact ⟨dep.1, .port (by simpa using port) dep.2⟩
  · simp at asked

theorem dep_setup (asked : .dep a b ∈ setupActs d fixed skip op dif cif) :
    a = ifaceName cif ∧ Leans cif (!fixed && op = .create) skip b := by
  rcases setup_bare rfl asked with ⟨rfl, rfl, added⟩ | port | adjusted
  · exact dep_add added
  · exact dep_bridge port
  · exact dep_set adjusted

/-- Only a veth that is added asks for its peer to be skipped. -/
theorem skip_setup (asked : .skip b ∈ setupActs d fixed skip op dif cif) :
    lydxGetCattr cif "type" = some typeVeth ∧ fixed = false ∧ op = .create ∧ skip = false ∧
      b = str (vethPeer cif) := by
  have vlan (dif : Ptr) : .skip b ∉ vlanActs dif cif := by simp [vlanActs, ipLines]
  rcases setup_bare rfl asked with ⟨dynamic, fresh, added⟩ | port | adjusted
  · unfold afspecAddActs at added
    split at added
    · simp [ipLines] at added
    · split at added
      · rename_i type
        cases skip with
        | true => simp [vethActs] at added
        | false =>
          simp only [vethActs, List.mem_cons, reduceCtorEq, false_or, Bool.false_eq_true, if_false,
            Act.skip.injEq] at added
          rcases added with peer | line
          · exact ⟨(hasType_iff _ _).mp type, dynamic, fresh, rfl, peer⟩
          · simp [ipLines] at line
      · split at added
        · exact absurd added (vlan _)
        · simp at added
  · simp [bridgeActs, ipLines] at port
  · unfold afspecSetActs at adjusted
    split at adjusted
    · simp [ipLines] at adjusted
    · split at adjusted
      · exact absurd adjusted (vlan _)
      · simp at adjusted

theorem vethPeer_child (same : (lydChild p).nodes = (lydChild q).nodes) : vethPeer p = vethPeer q :=
  lydxGetCattr_nodes _ (lydxGetDescendant_nodes ["veth"] same)

theorem Leans.child (leans : Leans cif fresh skip b) (same : (lydChild cif).nodes = (lydChild cif').nodes) :
    Leans cif' fresh skip b := by
  cases leans with
  | vlan type parent =>
    rw [cattr_child same] at type parent
    exact .vlan type parent
  | port port bridge =>
    rw [isNull_nodes (bridgePort_child same)] at port
    rw [lydxGetCattr_nodes _ (bridgePort_child same)] at bridge
    exact .port port bridge
  | veth type created skipped peer =>
    rw [cattr_child same] at type
    rw [vethPeer_child same] at peer
    exact .veth type created skipped peer

theorem dep_iface (asked : .dep a b ∈ ifaceActs d fixed skip dif cif) :
    a = ifaceName cif ∧ Leans cif (!fixed && created dif cif) skip b := by
  have deleting : .dep a b ∉ delActs (ifaceName dif) fixed := by simp [delActs]
  by_cases gone : lydxGetOp dif = .delete
  · rw [ifaceActs, if_pos gone] at asked
    exact absurd asked deleting
  · obtain ⟨before, op, dif', cif', same, child, fresh, early⟩ := ifaceActs_setup gone d fixed skip cif
    rw [same, List.mem_append] at asked
    rcases asked with first | asked
    · rcases early with rfl | rfl
      · simp at first
      · exact absurd first deleting
    · obtain ⟨rfl, leans⟩ := dep_setup asked
      refine ⟨ifaceName_child child, ?_⟩
      rw [show created dif cif = decide (op = .create) by
        rw [Bool.eq_iff_iff, decide_eq_true_eq, fresh]]
      exact leans.child child

theorem skip_iface (asked : .skip b ∈ ifaceActs d fixed skip dif cif) :
    lydxGetCattr cif "type" = some typeVeth ∧ fixed = false ∧ created dif cif = true ∧ skip = false ∧
      b = str (vethPeer cif) := by
  have deleting : .skip b ∉ delActs (ifaceName dif) fixed := by simp [delActs]
  by_cases gone : lydxGetOp dif = .delete
  · rw [ifaceActs, if_pos gone] at asked
    exact absurd asked deleting
  · obtain ⟨before, op, dif', cif', same, child, fresh, early⟩ := ifaceActs_setup gone d fixed skip cif
    rw [same, List.mem_append] at asked
    rcases asked with first | asked
    · rcases early with rfl | rfl
      · simp at first
      · exact absurd first deleting
    · obtain ⟨type, dynamic, op, answer, peer⟩ := skip_setup asked
      exact ⟨by rw [← cattr_child child, type], dynamic, fresh.mp op, answer, by rw [peer, vethPeer_child child]⟩

/-- What comes of a veth that is added, after its script has been opened. -/
theorem veth_iface (type : lydxGetCattr cif "type" = some typeVeth) (fresh : created dif cif = true) (d : Handle)
    (skip : Bool) : ∃ before rest, ifaceActs d false skip dif cif = before ++ (vethActs skip cif ++ rest) ∧
      ∀ b, .skip b ∉ before := by
  have alive : lydxGetOp dif ≠ .delete := by
    rintro gone
    simp [created, gone] at fresh
  obtain ⟨before, op, dif', cif', same, child, create, early⟩ := ifaceActs_setup alive d false skip cif
  have quiet (b : String) : .skip b ∉ before := by
    rcases early with rfl | rfl
    · simp
    · simp [delActs]
  have veth : lydxGetCattr cif' "type" = some typeVeth := by rw [cattr_child child, type]
  obtain rfl := create.mpr fresh
  have added : afspecAddActs skip cif' = vethActs skip cif := by
    have equal : vethActs skip cif' = vethActs skip cif := by
      rw [vethActs, vethActs, ifaceName_child child, vethPeer_child child]
    rw [← equal]
    simp [afspecAddActs, hasType, veth, typeBridge, typeVeth]
  rw [setupActs, linkActs, added] at same
  simp only [Bool.not_false, Bool.true_and, decide_true, if_true, List.cons_append, List.append_assoc] at same
  rw [List.append_cons] at same
  exact ⟨_, _, same, by simp [quiet]⟩

theorem findCif_mem (present : (findCif (interfacesOf cfg) dif).isNull = false) :
    findCif (interfacesOf cfg) dif ∈ ifaces cfg := by
  unfold findCif at present ⊢
  cases found : (lyxListForEach (interfacesOf cfg) "interface").find? fun cif => ifaceName cif = ifaceName dif with
  | none => simp [found, Ptr.null, Ptr.isNull] at present
  | some cif => exact List.mem_of_find?_eq_some found

/-- A step of the plan that adds one end of a veth pair, unless the other end has
done so. -/
structure AddsVeth (kernel : Kernel) (cfg : List Node) (step : Ptr × Bool) : Prop where
  type : lydxGetCattr (findCif (interfacesOf cfg) step.1) "type" = some typeVeth
  fresh : created step.1 (findCif (interfacesOf cfg) step.1) = true
  dynamic : isFixed kernel (ifaceName step.1) = false

namespace AddsVeth
variable {kernel : Kernel} {cfg : List Node} {step other : Ptr × Bool}

theorem member (adds : AddsVeth kernel cfg step) : findCif (interfacesOf cfg) step.1 ∈ ifaces cfg :=
  findCif_mem (cattr_not_null adds.type)

theorem name (adds : AddsVeth kernel cfg step) :
    ifaceName (findCif (interfacesOf cfg) step.1) = ifaceName step.1 :=
  findCif_name _ _ (cattr_not_null adds.type)

theorem of_skip (asked : .skip b ∈ stepActs d kernel (interfacesOf cfg) step) :
    AddsVeth kernel cfg step ∧ step.2 = false ∧ b = str (vethPeer (findCif (interfacesOf cfg) step.1)) := by
  obtain ⟨type, dynamic, fresh, answer, peer⟩ := skip_iface asked
  exact ⟨⟨type, fresh, dynamic⟩, answer, peer⟩

/-- Peers refer to each other. -/
theorem mutual_peer (adds : AddsVeth kernel cfg step) (others : AddsVeth kernel cfg other) (valid : Valid cfg)
    (peer : vethPeer (findCif (interfacesOf cfg) other.1) = some (ifaceName step.1)) :
    vethPeer (findCif (interfacesOf cfg) step.1) = some (ifaceName other.1) := by
  obtain ⟨cif, member, named, _, back⟩ := valid.peer others.member others.type
  rw [peer, Option.some.injEq, ← adds.name] at named
  rw [List.inj_on_of_nodup_map valid.unique adds.member member named, back, others.name]

end AddsVeth

section Answers
variable {d : Handle} {k : Nat} {kernel : Kernel} {cfg diff : List Node} {before after : Plan}
  {step : Ptr × Bool} {t u v : Base Piece}

/-- A veth that is added is skipped if the end before it has asked for that. -/
theorem Generated.answer (made : Generated d k kernel cfg diff (before ++ step :: after) t u v)
    (skips : SkipFiles k t fun _ => False) (adds : AddsVeth kernel cfg step) :
    step.2 = true ↔ .skip (ifaceName step.1) ∈ planActs d kernel (interfacesOf cfg) before := by
  obtain ⟨early, rest, asks, quiet⟩ := veth_iface adds.type adds.fresh d step.2
  have files : SkipFiles k u fun _ => False := by
    have noded := made.nodes.skip_files made.nodesReady skips
    refine ⟨noded.dir, fun none => none.elim, fun {v} _ => noded.missing ?_⟩
    rintro (none | asked)
    · exact none
    · obtain ⟨_, _, impossible⟩ := mem_nodeActs.mp asked
      cases impossible
  have made' := made.made
  have ready := made.ready
  rw [planActs_append, stepActs, adds.dynamic, asks, vethActs, adds.name, List.append_assoc, List.append_assoc,
    ← List.append_assoc, List.append_assoc _ rest, List.cons_append] at made' ready
  rw [made'.answered ready files]
  simp [quiet]

/-- Only the second end of a pair is skipped. -/
theorem Generated.skipped_iff (made : Generated d k kernel cfg diff (before ++ step :: after) t u v)
    (skips : SkipFiles k t fun _ => False) (valid : Valid cfg)
    (unique : ((ifaces diff).map ifaceName).Nodup) (adds : AddsVeth kernel cfg step) :
    step.2 = true ↔ ∃ other ∈ before, AddsVeth kernel cfg other ∧
      vethPeer (findCif (interfacesOf cfg) step.1) = some (ifaceName other.1) := by
  have asker {before after : Plan} {step : Ptr × Bool}
      (made : Generated d k kernel cfg diff (before ++ step :: after) t u v) (adds : AddsVeth kernel cfg step)
      (skipped : step.2 = true) : ∃ other ∈ before, AddsVeth kernel cfg other ∧
        vethPeer (findCif (interfacesOf cfg) step.1) = some (ifaceName other.1) := by
    obtain ⟨other, listed, asked⟩ := List.mem_flatMap.mp ((made.answer skips adds).mp skipped)
    obtain ⟨others, _, peer⟩ := AddsVeth.of_skip asked
    obtain ⟨cif, _, named, _⟩ := valid.peer others.member others.type
    rw [named] at peer
    exact ⟨other, listed, others, adds.mutual_peer others valid (named.trans (congrArg some peer.symm))⟩
  refine ⟨asker made adds, ?_⟩
  rintro ⟨other, listed, others, peer⟩
  rw [made.answer skips adds]
  have back := others.mutual_peer adds valid peer
  obtain ⟨first, between, rfl⟩ := List.append_of_mem listed
  have first_answer : other.2 = false := by
    rw [← Bool.not_eq_true]
    intro skipped
    -- Its own peer would have to come before it, but that is the step itself.
    have made' : Generated d k kernel cfg diff (first ++ other :: (between ++ step :: after)) t u v := by
      simpa using made
    obtain ⟨third, earlier, thirds, named⟩ := asker made' others skipped
    rw [back, Option.some.injEq] at named
    rw [← made.all, List.map_map] at unique
    simp only [List.map_append, List.map_cons, List.nodup_append, List.mem_append, List.mem_map] at unique
    refine unique.2.2 _ (.inl ⟨third, earlier, rfl⟩) _ List.mem_cons_self ?_
    simpa using named.symm
  refine List.mem_flatMap.mpr ⟨other, listed, ?_⟩
  obtain ⟨early, rest, asks, _⟩ := veth_iface others.type others.fresh d other.2
  rw [others.dynamic, asks, first_answer]
  simp [vethActs, back, str]

end Answers

theorem idxOf_split {before after : List String} (distinct : (before ++ a :: after).Nodup) :
    (before ++ a :: after).idxOf b < (before ++ a :: after).idxOf a ↔ b ∈ before := by
  have missing : a ∉ before := fun member =>
    (List.nodup_append.mp distinct).2.2 a member a List.mem_cons_self rfl
  rw [List.idxOf_append_of_notMem missing, List.idxOf_cons_self]
  constructor
  · intro less
    by_contra absent
    rw [List.idxOf_append_of_notMem absent] at less
    omega
  · intro member
    rw [List.idxOf_append_of_mem member]
    exact Nat.lt_add_right _ (List.idxOf_lt_length_of_mem member)

/-- The names of a plan are those of the diff, in its order. -/
theorem Generated.names (made : Generated d k kernel cfg diff plan t u v) :
    plan.map (fun step => ifaceName step.1) = (ifaces diff).map ifaceName := by
  rw [← made.all, List.map_map]
  rfl

/-- Every edge that is asked for is a dependency of the configuration. -/
theorem Generated.depends (made : Generated d k kernel cfg diff plan t u v)
    (skips : SkipFiles k t fun _ => False) (valid : Valid cfg) (unique : ((ifaces diff).map ifaceName).Nodup)
    (asked : .dep a b ∈ planActs d kernel (interfacesOf cfg) plan) :
    Depends cfg ((ifaces diff).map ifaceName) a b := by
  obtain ⟨step, listed, asked⟩ := List.mem_flatMap.mp asked
  obtain ⟨rfl, leans⟩ := dep_iface asked
  cases leans with
  | vlan type parent =>
    have member := findCif_mem (cattr_not_null type)
    obtain ⟨lower, _, named⟩ := valid.parent member type
    rw [named] at parent
    exact .vlan member type (named.trans (congrArg some parent.symm))
  | port port bridge =>
    have member := findCif_mem (descendant_not_null port)
    obtain ⟨_, other, _, named, _⟩ := valid.port member port
    rw [named] at bridge
    exact .port member (named.trans (congrArg some bridge.symm))
  | veth type fresh skipped peer =>
    simp only [Bool.and_eq_true, Bool.not_eq_true'] at fresh
    have adds : AddsVeth kernel cfg step := ⟨type, fresh.2, fresh.1⟩
    obtain ⟨before, after, rfl⟩ := List.append_of_mem listed
    obtain ⟨other, earlier, others, named⟩ := (made.skipped_iff skips valid unique adds).mp skipped
    rw [named] at peer
    refine .veth adds.member type (named.trans (congrArg some peer.symm)) ?_
    rw [← made.names, List.map_append, List.map_cons] at unique ⊢
    rw [adds.name, idxOf_split unique, peer]
    exact List.mem_map_of_mem earlier

/-- With every interface in the diff as a new one, and no VLAN or veth under the
name of a physical link, every dependency is asked for. -/
theorem Generated.depends_asked (made : Generated d k kernel cfg diff plan t u v)
    (skips : SkipFiles k t fun _ => False) (valid : Valid cfg) (unique : ((ifaces diff).map ifaceName).Nodup)
    (all : ∀ cif ∈ ifaces cfg, ∃ dif ∈ ifaces diff, ifaceName dif = ifaceName cif ∧ lydxGetOp dif = .create)
    (dynamic : ∀ cif ∈ ifaces cfg, lydxGetCattr cif "type" = some typeVlan ∨
      lydxGetCattr cif "type" = some typeVeth → isFixed kernel (ifaceName cif) = false)
    (depends : Depends cfg ((ifaces diff).map ifaceName) a b) :
    .dep a b ∈ planActs d kernel (interfacesOf cfg) plan := by
  have setup (cif : Ptr) (member : cif ∈ ifaces cfg) : ∃ dif skip, setupActs d
      (isFixed kernel (ifaceName cif)) skip .create dif cif ⊆ planActs d kernel (interfacesOf cfg) plan := by
    obtain ⟨dif, changed, same, create⟩ := all cif member
    obtain ⟨skip, asked⟩ := made.asked valid.unique member changed same
    refine ⟨dif, skip, fun act inside => asked ?_⟩
    simpa [ifaceActs, create, recreated] using inside
  cases depends with
  | vlan member type parent =>
    rename_i cif
    obtain ⟨dif, skip, included⟩ := setup cif member
    rw [dynamic cif member (.inl type)] at included
    have dep := setup_vlan type d skip .create dif
    rw [parent] at dep
    exact included dep
  | port member bridge =>
    rename_i cif
    obtain ⟨dif, skip, included⟩ := setup cif member
    have dep := setup_port (cattr_not_null bridge) d (isFixed kernel (ifaceName cif)) skip .create dif
    rw [bridge] at dep
    exact included dep
  | veth member type peer second =>
    rename_i cif
    have adds (cif : Ptr) (member : cif ∈ ifaces cfg) (type : lydxGetCattr cif "type" = some typeVeth) :
        ∃ step ∈ plan, findCif (interfacesOf cfg) step.1 = cif ∧ AddsVeth kernel cfg step := by
      obtain ⟨dif, changed, same, create⟩ := all cif member
      rw [← made.all] at changed
      obtain ⟨step, listed, rfl⟩ := List.mem_map.mp changed
      have found := findCif_eq valid.unique member same
      refine ⟨step, listed, found, by rw [found, type], by simp [created, create], ?_⟩
      rw [same]
      exact dynamic cif member (.inr type)
    obtain ⟨step, listed, found, own⟩ := adds cif member type
    obtain ⟨other, member', named, type', _⟩ := valid.peer member type
    obtain ⟨step', listed', found', others⟩ := adds other member' type'
    have name : ifaceName step.1 = ifaceName cif := by rw [← own.name, found]
    have name' : ifaceName step'.1 = b := by
      rw [← others.name, found']
      exact Option.some.inj (named.symm.trans peer)
    obtain ⟨before, after, rfl⟩ := List.append_of_mem listed
    have skipped : step.2 = true := by
      refine (made.skipped_iff skips valid unique own).mpr ⟨step', ?_, others, by rw [found, peer, name']⟩
      rw [← made.names, ← name, ← name', List.map_append, List.map_cons] at second
      rw [← made.names, List.map_append, List.map_cons] at unique
      have inside := (idxOf_split unique).mp second
      rcases List.mem_append.mp listed' with early | late
      · exact early
      · -- A later step of that name would be listed twice.
        obtain ⟨twin, early, same⟩ := List.mem_map.mp inside
        refine absurd same.symm ((List.nodup_append.mp unique).2.2 _ (List.mem_map_of_mem early) _ ?_).symm
        exact List.mem_map_of_mem (f := fun step : Ptr × Bool => ifaceName step.1) late
    refine List.mem_flatMap.mpr ⟨step, listed, ?_⟩
    obtain ⟨early, rest, asks, _⟩ := veth_iface own.type own.fresh d step.2
    rw [own.dynamic, asks, skipped, found]
    simp [vethActs, peer, str]

/-- An interface of this name and type. -/
def IsA (cfg : List Node) (iftype name : String) : Prop :=
  ∃ cif ∈ ifaces cfg, ifaceName cif = name ∧ lydxGetCattr cif "type" = some iftype

/-- A VLAN and its parent. -/
def VlanOn (cfg : List Node) (a b : String) : Prop :=
  ∃ cif ∈ ifaces cfg, ifaceName cif = a ∧ lydxGetCattr cif "type" = some typeVlan ∧
    lydxGetCattr cif "parent-interface" = some b

/-- A bridge and the bridge it is a port of. -/
def PortOf (cfg : List Node) (a b : String) : Prop :=
  ∃ cif ∈ ifaces cfg, ifaceName cif = a ∧ lydxGetCattr cif "type" = some typeBridge ∧
    lydxGetCattr (bridgePort cif) "bridge" = some b

section Cycles
open Relation
variable {cfg : List Node} {order : List String} {a b c : String}

theorem IsA.type_eq (isA : IsA cfg iftype (ifaceName cif)) (valid : Valid cfg) (member : cif ∈ ifaces cfg) :
    lydxGetCattr cif "type" = some iftype := by
  obtain ⟨other, listed, name, type⟩ := isA
  rw [← List.inj_on_of_nodup_map valid.unique listed member name, type]

theorem IsA.unique (first : IsA cfg iftype a) (second : IsA cfg iftype' a) (valid : Valid cfg) : iftype = iftype' := by
  obtain ⟨cif, member, rfl, type⟩ := first
  exact Option.some.inj (type.symm.trans (second.type_eq valid member))

/-- What kinds of interface an edge can join. -/
theorem Depends.kinds (depends : Depends cfg order a b) (valid : Valid cfg) :
    VlanOn cfg a b ∨ (¬IsA cfg typeVlan a ∧ IsA cfg typeBridge b ∧ (IsA cfg typeBridge a → PortOf cfg a b)) ∨
      IsA cfg typeVeth a ∧ IsA cfg typeVeth b ∧ order.idxOf b < order.idxOf a := by
  cases depends with
  | vlan member type parent => exact .inl ⟨_, member, rfl, type, parent⟩
  | port member bridge =>
    obtain ⟨⟨iftype, listed, type⟩, other, member', named, type'⟩ := valid.port member (cattr_not_null bridge)
    refine .inr (.inl ⟨fun vlan => ?_, ?_, fun isBridge => ⟨_, member, rfl, isBridge.type_eq valid member, bridge⟩⟩)
    · rw [vlan.type_eq valid member, Option.some.injEq] at type
      exact absurd (type ▸ listed) (by decide)
    · rw [bridge, Option.some.injEq] at named
      exact ⟨other, member', named.symm, type'⟩
  | veth member type peer second =>
    obtain ⟨other, member', named, type', _⟩ := valid.peer member type
    rw [peer, Option.some.injEq] at named
    exact .inr (.inr ⟨⟨_, member, rfl, type⟩, ⟨other, member', named.symm, type'⟩, second⟩)

theorem VlanOn.isA (on : VlanOn cfg a b) : IsA cfg typeVlan a := by
  obtain ⟨cif, member, name, type, _⟩ := on
  exact ⟨cif, member, name, type⟩

/-- From a bridge only bridges are reached. -/
theorem bridge_path (valid : Valid cfg) (isBridge : IsA cfg typeBridge a)
    (path : TransGen (Depends cfg order) a c) : TransGen (PortOf cfg) a c ∧ IsA cfg typeBridge c := by
  have step {a b : String} (isBridge : IsA cfg typeBridge a) (edge : Depends cfg order a b) :
      PortOf cfg a b ∧ IsA cfg typeBridge b := by
    rcases edge.kinds valid with vlan | ⟨_, target, port⟩ | ⟨veth, _⟩
    · exact absurd (isBridge.unique vlan.isA valid) (by decide)
    · exact ⟨port isBridge, target⟩
    · exact absurd (isBridge.unique veth valid) (by decide)
  induction path with
  | single edge =>
    obtain ⟨port, target⟩ := step isBridge edge
    exact ⟨.single port, target⟩
  | tail _ edge ih =>
    obtain ⟨port, target⟩ := step ih.2 edge
    exact ⟨ih.1.tail port, target⟩

/-- Only VLANs lead to a VLAN. -/
theorem vlan_path (valid : Valid cfg) (path : TransGen (Depends cfg order) a c) (isVlan : IsA cfg typeVlan c) :
    TransGen (VlanOn cfg) a c := by
  have step {b c : String} (edge : Depends cfg order b c) (isVlan : IsA cfg typeVlan c) : VlanOn cfg b c := by
    rcases edge.kinds valid with vlan | ⟨_, target, _⟩ | ⟨_, target, _⟩
    · exact vlan
    · exact absurd (isVlan.unique target valid) (by decide)
    · exact absurd (isVlan.unique target valid) (by decide)
  induction path with
  | single edge => exact .single (step edge isVlan)
  | tail _ edge ih =>
    have last := step edge isVlan
    exact (ih last.isA).tail last

/-- From a veth the walk stays with earlier veths or ends up among bridges. -/
theorem veth_path (valid : Valid cfg) (isVeth : IsA cfg typeVeth a) (path : TransGen (Depends cfg order) a c) :
    IsA cfg typeBridge c ∨ IsA cfg typeVeth c ∧ order.idxOf c < order.idxOf a := by
  have step {a b : String} (isVeth : IsA cfg typeVeth a) (edge : Depends cfg order a b) :
      IsA cfg typeBridge b ∨ IsA cfg typeVeth b ∧ order.idxOf b < order.idxOf a := by
    rcases edge.kinds valid with vlan | ⟨_, target, _⟩ | ⟨_, target, earlier⟩
    · exact absurd (isVeth.unique vlan.isA valid) (by decide)
    · exact .inl target
    · exact .inr ⟨target, earlier⟩
  induction path with
  | single edge => exact step isVeth edge
  | tail _ edge ih =>
    rcases ih with bridge | ⟨veth, earlier⟩
    · exact .inl (bridge_path valid bridge (.single edge)).2
    · rcases step veth edge with bridge | ⟨veth, still⟩
      · exact .inl bridge
      · exact .inr ⟨veth, still.trans earlier⟩

/-- A cycle consists of VLANs or of bridges. -/
theorem cycle_kinds (valid : Valid cfg) (cycle : TransGen (Depends cfg order) a a) :
    TransGen (VlanOn cfg) a a ∨ TransGen (PortOf cfg) a a := by
  by_cases isVlan : IsA cfg typeVlan a
  · exact .inl (vlan_path valid cycle isVlan)
  obtain ⟨b, first, rest⟩ := TransGen.head'_iff.mp cycle
  rcases first.kinds valid with vlan | ⟨_, bridge, _⟩ | ⟨veth, _⟩
  · exact absurd vlan.isA isVlan
  · refine .inr (bridge_path valid ?_ cycle).1
    rcases reflTransGen_iff_eq_or_transGen.mp rest with rfl | path
    · exact bridge
    · exact (bridge_path valid bridge path).2
  · rcases veth_path valid veth cycle with bridge | ⟨_, earlier⟩
    · exact absurd (veth.unique bridge valid) (by decide)
    · exact absurd earlier (Nat.lt_irrefl _)

end Cycles

/-- An entry of the dag directory of the generation in preparation. -/
def Net.nextDag (net : Net) (r : Path) : Option (Posix.Node (Item Piece)) :=
  net.world.tree.get (genName net.generations :: "dag" :: r)

/-- The edges of an accepted CHANGE are those the generator asked for. -/
theorem Accepted.edge_iff (accepted : Accepted base before change plan u mid) :
    (mid.nextDag [a, b]).isSome ↔
      .dep a b ∈ planActs mid.world.handle before.kernel (interfacesOf change.cfg) plan := by
  have made := accepted.generated
  rw [Net.nextDag, accepted.count]
  constructor
  · intro present
    by_contra unasked
    have noded : .dep a b ∉ nodeActs (interfacesOf change.cfg) (interfacesOf change.diff) := by
      intro asked
      obtain ⟨_, _, impossible⟩ := mem_nodeActs.mp asked
      cases impossible
    rw [made.made.edge_asked made.ready unasked, made.nodes.edge_asked made.nodesReady noded,
      accepted.undag] at present
    simp at present
  · intro asked
    rw [made.made.edge made.ready asked]
    rfl

theorem Accepted.edge_depends (accepted : Accepted base before change plan u mid) (valid : Valid change.cfg)
    (unique : ((ifaces change.diff).map ifaceName).Nodup) (edge : (mid.nextDag [a, b]).isSome) :
    Depends change.cfg ((ifaces change.diff).map ifaceName) a b :=
  accepted.generated.depends accepted.skips valid unique (accepted.edge_iff.mp edge)

/-- All names are words. -/
def NamesPlain (_ : Running) (change : Change) : Prop := NamesIn Plain change.cfg change.diff

/-- In a valid configuration dependencies can only be cyclic among VLANs or among
bridges. The edges of an accepted transaction are dependencies; if it creates all
interfaces, every dependency is an edge. -/
theorem dependencies_cyclic_alike (cfg : List Node) (valid : Valid cfg) :
    (∀ (order : List String) (a : String), Relation.TransGen (Depends cfg order) a a →
      Relation.TransGen (VlanOn cfg) a a ∨ Relation.TransGen (PortOf cfg) a a) ∧
    ∀ (base : String) (s : Running) (change : Change) (mid : Net), base ≠ "" → Literal base →
      Commits base NamesPlain s → NamesPlain s change → change.cfg = cfg →
      ((ifaces change.diff).map ifaceName).Nodup → ifchange base change s.net = (.ok, mid) →
      (∀ a b, (mid.nextDag [a, b]).isSome → Depends cfg ((ifaces change.diff).map ifaceName) a b) ∧
      ((∀ cif ∈ ifaces cfg, ∃ dif ∈ ifaces change.diff,
          ifaceName dif = ifaceName cif ∧ lydxGetOp dif = .create) →
        (∀ cif ∈ ifaces cfg, lydxGetCattr cif "type" = some typeVlan ∨
          lydxGetCattr cif "type" = some typeVeth → isFixed s.net.kernel (ifaceName cif) = false) →
        ∀ a b, Depends cfg ((ifaces change.diff).map ifaceName) a b → (mid.nextDag [a, b]).isSome) := by
  refine ⟨fun order a cycle => cycle_kinds valid cycle, ?_⟩
  rintro base s change mid nonempty literal commits names rfl unique accepted
  have steady := commits.steady nonempty literal fun _ _ plain => plain
  obtain ⟨plan, u, filled⟩ := steady.accepted names accepted
  constructor
  · intro a b edge
    exact filled.edge_depends valid unique edge
  · intro all dynamic a b depends
    exact filled.edge_iff.mpr (filled.generated.depends_asked filled.skips valid unique all dynamic depends)

/-- Two bridges, each a port of the other. -/
def bridgeLoop : List Node := interfaces
  [ifaceEntry "br0" typeBridge [.inner "bridge-port" [] .plain [.leaf "bridge" "br1" false .plain]],
    ifaceEntry "br1" typeBridge [.inner "bridge-port" [] .plain [.leaf "bridge" "br0" false .plain]]]

/-- The configuration is valid, its transaction is accepted, and its dag is none. -/
theorem bridge_loop_cyclic :
    let changed := ifchange "/run/net" (changeTo [] bridgeLoop) (Running.boot ⟨[]⟩).net
    Valid bridgeLoop ∧ changed.1 = .ok ∧
      Relation.TransGen (fun a b => (changed.2.nextDag [a, b]).isSome = true) "br0" "br0" := by
  refine ⟨by decide +kernel, by decide +kernel, ?_⟩
  exact .tail (b := "br1") (.single (by decide +kernel)) (by decide +kernel)

/-- The stack of a bridge, its port and a VLAN meets the conditions and is not cyclic. -/
theorem dependencies_cyclic_alike_stack :
    Valid (interfaces stack) ∧ Depends (interfaces stack) ["br0", "eth0", "vlan1"] "vlan1" "br0" ∧
    ∀ a, Relation.TransGen (Depends (interfaces stack) ["br0", "eth0", "vlan1"]) a a →
      Relation.TransGen (VlanOn (interfaces stack)) a a ∨ Relation.TransGen (PortOf (interfaces stack)) a a := by
  have valid : Valid (interfaces stack) := by decide +kernel
  have results := dependencies_cyclic_alike (interfaces stack) valid
  have accepted : (ifchange "/run/net" (changeTo [] (interfaces stack)) (Running.boot twoPorts).net).1 = .ok := by
    decide +kernel
  have edges := (results.2 "/run/net" (.boot twoPorts) (changeTo [] (interfaces stack)) _ (by decide) (by decide)
    (.boot twoPorts) (by decide +kernel : NamesIn Plain _ _) rfl (by decide +kernel) (Prod.ext accepted rfl)).1
  exact ⟨valid, edges "vlan1" "br0" (by decide +kernel), results.1 ["br0", "eth0", "vlan1"]⟩

end Netdag
