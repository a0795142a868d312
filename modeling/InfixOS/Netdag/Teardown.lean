import InfixOS.Netdag.Dependencies
import InfixOS.Netdag.Links

/-! The exit scripts of a transaction against the links of the running
configuration. Each interface is taken down on its own, while the kernel takes
links down in groups. -/
namespace Netdag
open Core Dagger Exec Lyx Posix Posix.FileTree Relation Yang

/-- The kind of link that an interface is set up as. -/
def linkKind (cif : Ptr) : LinkKind :=
  if lydxGetCattr cif "type" = some typeBridge then .bridge
  else if lydxGetCattr cif "type" = some typeVeth then .veth (str (vethPeer cif))
  else if lydxGetCattr cif "type" = some typeVlan then .vlan (str (lydxGetCattr cif "parent-interface"))
  else if ifaceName cif = "lo" then .loopback
  else .ether

/-- The links of a configuration are there, and the loopback as always. -/
structure HoldsLinks (links : Links) (cfg : List Node) : Prop where
  lo : links "lo" = some .loopback
  own : ∀ cif ∈ ifaces cfg, links (ifaceName cif) = some (linkKind cif)

instance (links : Links) (cfg : List Node) : Decidable (HoldsLinks links cfg) :=
  decidable_of_iff
    (links "lo" = some .loopback ∧ ∀ cif ∈ ifaces cfg, links (ifaceName cif) = some (linkKind cif))
    ⟨fun h => ⟨h.1, h.2⟩, fun h => ⟨h.lo, h.own⟩⟩

/-- A diff has one entry per interface, and what it does not create was there. -/
structure Differs (cfg diff : List Node) : Prop where
  unique : ((ifaces diff).map ifaceName).Nodup
  old : ∀ dif ∈ ifaces diff, lydxGetOp dif ≠ .create → ∃ cif ∈ ifaces cfg, ifaceName cif = ifaceName dif

instance (cfg diff : List Node) : Decidable (Differs cfg diff) :=
  decidable_of_iff
    (((ifaces diff).map ifaceName).Nodup ∧
      ∀ dif ∈ ifaces diff, lydxGetOp dif ≠ .create → ∃ cif ∈ ifaces cfg, ifaceName cif = ifaceName dif)
    ⟨fun h => ⟨h.1, h.2⟩, fun h => ⟨h.unique, h.old⟩⟩

/-- The interfaces of a configuration with dependers before dependees. The second
end of a veth pair is the one set up later. -/
structure TopDown (cfg : List Node) (processed order : List String) : Prop where
  perm : order.Perm ((ifaces cfg).map ifaceName)
  sorted : Depends cfg processed a b → order.idxOf a < order.idxOf b

theorem TopDown.of_dependees (perm : order.Perm ((ifaces cfg).map ifaceName))
    (sorted : ∀ cif ∈ ifaces cfg, ∀ b ∈ dependees processed cif, order.idxOf (ifaceName cif) < order.idxOf b) :
    TopDown cfg processed order where
  perm := perm
  sorted := by
    intro a b depends
    obtain ⟨cif, member, rfl, listed⟩ := depends.listed
    exact sorted cif member b listed

/-- The transaction deletes the interface, for good or to create it again. -/
def Drops (change : Change) (x : String) : Prop :=
  ∃ dif ∈ ifaces change.diff, ifaceName dif = x ∧ dropped dif (findCif (interfacesOf change.cfg) dif) = true

instance (change : Change) (x : String) : Decidable (Drops change x) :=
  inferInstanceAs (Decidable (∃ dif ∈ ifaces change.diff, _ ∧ _))

/-- A veth and its peer. -/
def VethOf (cfg : List Node) (a b : String) : Prop :=
  ∃ cif ∈ ifaces cfg, ifaceName cif = a ∧ lydxGetCattr cif "type" = some typeVeth ∧ vethPeer cif = some b

/-- The link scripts that are run, one interface after the other. -/
def exitLines (s : Running) (mid : Net) (order : List String) : List Piece :=
  order.flatMap fun v => scriptPieces mid.world.tree (scriptOf s.net.generations .exit v (50, "exit.ip"))

def takedownOf (kernel : Kernel) (change : Change) (x : String) : Takedown :=
  if Drops change x then if isFixed kernel x then .down else .del else .nothing

/-- What the exit script of an interface holds. -/
theorem Accepted.exit_script (accepted : Accepted base before change plan u mid)
    (positive : 0 < before.generations) (names : NamesIn Plain change.cfg change.diff)
    (unique : ((ifaces change.diff).map ifaceName).Nodup) (x : String) :
    scriptPieces mid.world.tree (scriptOf before.generations .exit x (50, "exit.ip")) =
      (takedownOf before.kernel change x).pieces x := by
  have made := accepted.generated
  rw [made.script_pieces (by decide) (accepted.fresh (by simp only [sideGen]; omega))]
  by_cases planned : x ∈ plan.map fun step => ifaceName step.1
  · obtain ⟨step, listed, rfl⟩ := List.mem_map.mp planned
    have drops : Drops change (ifaceName step.1) ↔
        dropped step.1 (findCif (interfacesOf change.cfg) step.1) = true := by
      have member : step.1 ∈ ifaces change.diff := made.all ▸ List.mem_map_of_mem listed
      constructor
      · rintro ⟨dif, changed, same, gone⟩
        rwa [← List.inj_on_of_nodup_map unique changed member same]
      · exact fun gone => ⟨step.1, member, rfl, gone⟩
    rw [content_planned names (by decide) (made.names ▸ unique) listed, stepActs,
      content_exit _ _ (findCif_name _ _) (names.found _)]
    by_cases gone : dropped step.1 (findCif (interfacesOf change.cfg) step.1) = true
    · rw [if_pos gone, takedownOf, if_pos (drops.mpr gone), delPieces]
      split
      · rfl
      · rfl
    · rw [if_neg gone, takedownOf, if_neg (mt drops.mp gone)]
      rfl
  · have stays : ¬Drops change x := by
      rintro ⟨dif, changed, rfl, _⟩
      rw [made.names] at planned
      exact planned (List.mem_map_of_mem changed)
    rw [content_unplanned names (by decide) planned, takedownOf, if_neg stays]
    rfl

section Held
variable {links : Links} {cfg : List Node} {x y p : String}

theorem HoldsLinks.vlan_iff (holds : HoldsLinks links cfg) (valid : Valid cfg) (member : x ∈ (ifaces cfg).map ifaceName) :
    links x = some (.vlan y) ↔ VlanOn cfg x y := by
  obtain ⟨cif, listed, rfl⟩ := List.mem_map.mp member
  rw [holds.own cif listed, Option.some.injEq]
  constructor
  · intro kind
    unfold linkKind at kind
    split at kind
    · simp at kind
    split at kind
    · simp at kind
    split at kind
    · rename_i type
      obtain ⟨lower, _, named⟩ := valid.parent listed type
      rw [named, LinkKind.vlan.injEq] at kind
      exact ⟨cif, listed, rfl, type, named.trans (congrArg some kind)⟩
    · split at kind
      · simp at kind
      · simp at kind
  · rintro ⟨other, member', name, type, parent⟩
    rw [← List.inj_on_of_nodup_map valid.unique member' listed name, linkKind, type, parent]
    rfl

theorem HoldsLinks.veth_iff (holds : HoldsLinks links cfg) (valid : Valid cfg) (member : x ∈ (ifaces cfg).map ifaceName) :
    links x = some (.veth y) ↔ VethOf cfg x y := by
  obtain ⟨cif, listed, rfl⟩ := List.mem_map.mp member
  rw [holds.own cif listed, Option.some.injEq]
  constructor
  · intro kind
    unfold linkKind at kind
    split at kind
    · simp at kind
    split at kind
    · rename_i type
      obtain ⟨other, _, named, _⟩ := valid.peer listed type
      rw [named, LinkKind.veth.injEq] at kind
      exact ⟨cif, listed, rfl, type, named.trans (congrArg some kind)⟩
    split at kind
    · simp at kind
    · split at kind
      · simp at kind
      · simp at kind
  · rintro ⟨other, member', name, type, peer⟩
    rw [← List.inj_on_of_nodup_map valid.unique member' listed name, linkKind, type, peer]
    rfl

theorem VlanOn.lower (on : VlanOn cfg x y) (valid : Valid cfg) : y ∈ (ifaces cfg).map ifaceName := by
  obtain ⟨cif, member, _, type, parent⟩ := on
  obtain ⟨lower, listed, named⟩ := valid.parent member type
  rw [parent, Option.some.injEq] at named
  exact List.mem_map.mpr ⟨lower, listed, named.symm⟩

theorem VlanOn.upper (on : VlanOn cfg x y) : x ∈ (ifaces cfg).map ifaceName := by
  obtain ⟨cif, member, name, _⟩ := on
  exact List.mem_map.mpr ⟨cif, member, name⟩

theorem HoldsLinks.vanishes_above (holds : HoldsLinks links cfg) (valid : Valid cfg)
    (vanishes : Vanishes links y z) (above : ReflTransGen (VlanOn cfg) x z) : Vanishes links y x := by
  induction above using ReflTransGen.head_induction_on with
  | refl => exact vanishes
  | head on _ ih => exact .vlan ih ((holds.vlan_iff valid on.upper).mpr on)

/-- An interface disappears with what it stands on, and with the peer of that. -/
theorem HoldsLinks.vanishes_iff (holds : HoldsLinks links cfg) (valid : Valid cfg)
    (member : x ∈ (ifaces cfg).map ifaceName) (member' : y ∈ (ifaces cfg).map ifaceName) :
    Vanishes links y x ↔ ReflTransGen (VlanOn cfg) x y ∨ ∃ p, VethOf cfg y p ∧ ReflTransGen (VlanOn cfg) x p := by
  constructor
  · intro vanishes
    induction vanishes with
    | self => exact .inl .refl
    | peer veth => exact .inr ⟨_, (holds.veth_iff valid member').mp veth, .refl⟩
    | vlan below above ih =>
      have on := (holds.vlan_iff valid member).mp above
      rcases ih (on.lower valid) with down | ⟨p, veth, down⟩
      · exact .inl (.head on down)
      · exact .inr ⟨p, veth, .head on down⟩
  · rintro (above | ⟨p, veth, above⟩)
    · exact holds.vanishes_above valid .self above
    · exact holds.vanishes_above valid (.peer ((holds.veth_iff valid member').mpr veth)) above

theorem TopDown.earlier (topDown : TopDown cfg processed order) (above : TransGen (VlanOn cfg) x y) :
    order.idxOf x < order.idxOf y := by
  have step {x y : String} (on : VlanOn cfg x y) : order.idxOf x < order.idxOf y := by
    obtain ⟨cif, member, rfl, type, parent⟩ := on
    exact topDown.sorted (.vlan member type parent)
  induction above with
  | single on => exact step on
  | tail _ on ih => exact ih.trans (step on)

theorem VethOf.dynamic {kernel : Kernel} (veth : VethOf cfg y p) (holds : HoldsLinks kernel.kinds cfg)
    (valid : Valid cfg) : isFixed kernel y = false := by
  have member : y ∈ (ifaces cfg).map ifaceName := by
    obtain ⟨cif, listed, name, _⟩ := veth
    exact List.mem_map.mpr ⟨cif, listed, name⟩
  have kind := (holds.veth_iff valid member).mpr veth
  have other : y ≠ "lo" := by
    rintro rfl
    simp [holds.lo] at kind
  obtain ⟨link, found, same⟩ := Option.map_eq_some_iff.mp kind
  simp [isFixed, Kernel.ifaceIsPhys, found, same, other]

end Held

theorem Differs.drops (differs : Differs cfg change.diff) (drops : Drops change x) :
    x ∈ (ifaces cfg).map ifaceName := by
  obtain ⟨dif, changed, rfl, gone⟩ := drops
  have was : lydxGetOp dif ≠ .create := by
    intro create
    simp [dropped, recreated, create] at gone
  obtain ⟨cif, member, name⟩ := differs.old dif changed was
  exact List.mem_map.mpr ⟨cif, member, name⟩

theorem takedownOf_ne_nothing : takedownOf kernel change x ≠ .nothing ↔ Drops change x := by
  unfold takedownOf
  split
  · rename_i drops
    split <;> simp [drops]
  · rename_i stays
    simp [stays]

theorem takedownOf_eq_del : takedownOf kernel change x = .del ↔ Drops change x ∧ isFixed kernel x = false := by
  unfold takedownOf
  split
  · rename_i drops
    split
    · rename_i fixed
      simp [fixed]
    · rename_i dynamic
      simpa [drops] using dynamic
  · rename_i stays
    simp [stays]

/-- The exit scripts of a transaction, run in an order in which dependers come
first, find every link they delete, and no deleted link is left, exactly if with
a deleted veth there goes nothing that is deleted after it. -/
theorem exit_deletions_iff (base : String) (nonempty : base ≠ "") (literal : Literal base) (s : Running)
    (commits : Commits base NamesPlain s) (valid : Valid s.cfg) (holds : HoldsLinks s.net.kernel.kinds s.cfg)
    (change : Change) (names : NamesPlain s change) (differs : Differs s.cfg change.diff) (mid : Net)
    (accepted : ifchange base change s.net = (.ok, mid)) (processed order : List String)
    (topDown : TopDown s.cfg processed order) :
    (∃ after, s.net.kernel.kinds.run (exitLines s mid order) = some after ∧
      ∀ x, Drops change x → isFixed s.net.kernel x = false → after x = none) ↔
    ∀ y p x, Drops change y → VethOf s.cfg y p → Drops change x → ReflTransGen (VlanOn s.cfg) x p →
      order.idxOf x ≤ order.idxOf y := by
  have steady := commits.steady nonempty literal fun _ _ plain => plain
  obtain ⟨plan, u, filled⟩ := steady.accepted names accepted
  have distinct : order.Nodup := topDown.perm.nodup_iff.mpr valid.unique
  have lines : exitLines s mid order = takedownLines (takedownOf s.net.kernel change) order := by
    refine List.flatMap_congr fun x listed => ?_
    obtain ⟨cif, member, rfl⟩ := List.mem_map.mp (topDown.perm.mem_iff.mp listed)
    exact filled.exit_script (steady.nodes member).1 names differs.unique _
  rw [lines]
  have ends : (∃ after, s.net.kernel.kinds.run (takedownLines (takedownOf s.net.kernel change) order) = some after ∧
      ∀ x, Drops change x → isFixed s.net.kernel x = false → after x = none) ↔
      ∃ after, s.net.kernel.kinds.run (takedownLines (takedownOf s.net.kernel change) order) = some after := by
    refine exists_congr fun after => and_iff_left_of_imp fun ran x drops dynamic => ?_
    refine ((Remaining.start _).run_gone ran).lost (y := x) ?_ .self
    refine List.mem_append_right _ (List.mem_flatMap.mpr ⟨x, topDown.perm.mem_iff.mpr (differs.drops drops), ?_⟩)
    rw [takedownOf_eq_del.mpr ⟨drops, dynamic⟩]
    exact List.mem_singleton_self x
  rw [ends, (Remaining.start _).run_iff]
  constructor
  · intro found y p x gone veth gone' above
    by_contra! later
    have member := differs.drops gone'
    obtain ⟨before, rest, rfl⟩ := List.append_of_mem (topDown.perm.mem_iff.mpr member)
    refine (found before x rest rfl (takedownOf_ne_nothing.mpr gone')).2 y (.inr ⟨?_, ?_⟩) ?_
    · exact (idxOf_split distinct).mp later
    · exact takedownOf_eq_del.mpr ⟨gone, veth.dynamic holds valid⟩
    · exact (holds.vanishes_iff valid member (differs.drops gone)).mpr (.inr ⟨p, veth, above⟩)
  · rintro first before x rest rfl gone
    rw [takedownOf_ne_nothing] at gone
    have member := differs.drops gone
    constructor
    · obtain ⟨cif, listed, rfl⟩ := List.mem_map.mp member
      simp [holds.own cif listed]
    · rintro y (none | ⟨earlier, del⟩) vanishes
      · simp at none
      · obtain ⟨gone', _⟩ := takedownOf_eq_del.mp del
        have before := (idxOf_split distinct).mpr earlier
        rcases (holds.vanishes_iff valid member (differs.drops gone')).mp vanishes with above | ⟨p, veth, above⟩
        · rcases reflTransGen_iff_eq_or_transGen.mp above with rfl | path
          · exact absurd before (Nat.lt_irrefl _)
          · exact absurd before (topDown.earlier path).le.not_gt
        · exact absurd before (first y p x gone' veth gone above).not_gt

/-- A kernel with these links besides the loopback. -/
def linked (links : List (String × LinkKind)) : Kernel :=
  ⟨⟨"lo", .loopback, [], []⟩ :: links.map fun (name, kind) => ⟨name, kind, [], []⟩⟩

def stackLinked : Running := (Running.boot (linked [("eth0", .ether)])).to (interfaces stack)
  (linked [("eth0", .ether), ("br0", .bridge), ("vlan1", .vlan "br0")])

/-- The CHANGE that takes the stack away. -/
def unstacked : Net := (ifchange "/run/net" (changeTo stackLinked.cfg []) stackLinked.net).2

/-- The whole stack is deleted from the top. -/
theorem exit_deletions_iff_stack : ∃ after,
    exitLines stackLinked unstacked ["vlan1", "eth0", "br0"] =
      [.linkDel "vlan1", .exitDown "eth0", .exitFlush "eth0", .linkDel "br0"] ∧
    stackLinked.net.kernel.kinds.run (exitLines stackLinked unstacked ["vlan1", "eth0", "br0"]) = some after ∧
    ∀ x, Drops (changeTo stackLinked.cfg []) x → isFixed stackLinked.net.kernel x = false → after x = none := by
  have goes : (Running.boot (linked [("eth0", .ether)])).Goes (interfaces stack) := by decide +kernel
  have plain : NamesIn Plain (changeTo [] (interfaces stack)).cfg (changeTo [] (interfaces stack)).diff := by
    decide +kernel
  have commits : Commits "/run/net" NamesPlain stackLinked := (Commits.boot _).to _ _ goes plain
  have unpaired : ∀ cif ∈ ifaces stackLinked.cfg, lydxGetCattr cif "type" ≠ some typeVeth := by decide +kernel
  have topDown : TopDown stackLinked.cfg ["br0", "eth0", "vlan1"] ["vlan1", "eth0", "br0"] := by
    refine .of_dependees (by decide +kernel) ?_
    decide +kernel
  have ok : (ifchange "/run/net" (changeTo stackLinked.cfg []) stackLinked.net).1 = .ok := by decide +kernel
  have accepted : ifchange "/run/net" (changeTo stackLinked.cfg []) stackLinked.net = (.ok, unstacked) := by
    rw [unstacked, ← ok]
  have names : NamesIn Plain (changeTo stackLinked.cfg []).cfg (changeTo stackLinked.cfg []).diff := by decide +kernel
  have valid : Valid stackLinked.cfg := by decide +kernel
  have holds : HoldsLinks stackLinked.net.kernel.kinds stackLinked.cfg := by decide +kernel
  have differs : Differs stackLinked.cfg (changeTo stackLinked.cfg []).diff := by decide +kernel
  have lines : exitLines stackLinked unstacked ["vlan1", "eth0", "br0"] =
      [.linkDel "vlan1", .exitDown "eth0", .exitFlush "eth0", .linkDel "br0"] := by decide +kernel
  have deletions := exit_deletions_iff "/run/net" (by decide) (by decide) stackLinked commits valid holds
    (changeTo stackLinked.cfg []) names differs unstacked accepted _ _ topDown
  refine (deletions.mpr ?_).imp fun after ran => ⟨lines, ran⟩
  rintro y p x _ ⟨cif, member, _, type, _⟩
  exact absurd type (unpaired cif member)

/-- The two ends of a veth pair. -/
def vethPair : List Node := interfaces
  [ifaceEntry "veth0" typeVeth [.inner "veth" [] .plain [.leaf "peer" "veth1" false .plain]],
    ifaceEntry "veth1" typeVeth [.inner "veth" [] .plain [.leaf "peer" "veth0" false .plain]]]

def pairLinked : Running :=
  (Running.boot (linked [])).to vethPair (linked [("veth0", .veth "veth1"), ("veth1", .veth "veth0")])

/-- The deletion of both ends fails: the first takes the second along. -/
theorem veth_pair_deletion_fails :
    let changed := ifchange "/run/net" (changeTo pairLinked.cfg []) pairLinked.net
    Commits "/run/net" NamesPlain pairLinked ∧ Valid pairLinked.cfg ∧ Valid [] ∧
      HoldsLinks pairLinked.net.kernel.kinds pairLinked.cfg ∧ Differs pairLinked.cfg (changeTo pairLinked.cfg []).diff ∧
      changed.1 = .ok ∧ TopDown pairLinked.cfg ["veth0", "veth1"] ["veth1", "veth0"] ∧
      exitLines pairLinked changed.2 ["veth1", "veth0"] = [.linkDel "veth1", .linkDel "veth0"] ∧
      pairLinked.net.kernel.kinds.run (exitLines pairLinked changed.2 ["veth1", "veth0"]) = none := by
  intro changed
  have goes : (Running.boot (linked [])).Goes vethPair := by decide +kernel
  have plain : NamesIn Plain (changeTo [] vethPair).cfg (changeTo [] vethPair).diff := by decide +kernel
  have lines : exitLines pairLinked changed.2 ["veth1", "veth0"] = [.linkDel "veth1", .linkDel "veth0"] := by
    decide +kernel
  have topDown : TopDown pairLinked.cfg ["veth0", "veth1"] ["veth1", "veth0"] := by
    refine .of_dependees (by decide +kernel) ?_
    decide +kernel
  refine ⟨(Commits.boot _).to _ _ goes plain, by decide +kernel, by decide +kernel, by decide +kernel,
    by decide +kernel, by decide +kernel, topDown, lines, ?_⟩
  have first : pairLinked.net.kernel.kinds "veth1" = some (.veth "veth0") := by decide +kernel
  have second : (Links.del pairLinked.net.kernel.kinds "veth1") "veth0" = none := Links.del_eq_none (.peer first)
  rw [lines]
  simp [Links.run, Links.exec, first, second]

end Netdag
