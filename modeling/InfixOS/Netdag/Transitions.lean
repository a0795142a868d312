import InfixOS.Netdag.Creation
import InfixOS.Netdag.Entries
import InfixOS.Netdag.Teardown

/-! A transaction from one configuration to another, as the link scripts of its
interfaces. -/
namespace Netdag
open Core Dagger Lyx Posix Yang

/-- The link scripts of a transaction in the order they are run. Before the first
commit there is no generation to take down. -/
def linkLines (s : Running) (mid : Net) (down up : List String) : List Piece :=
  (if 0 < s.net.generations then exitLines s mid down else []) ++ up.flatMap mid.initScript

theorem markCreated_below (present : cif.isNull = false) (is : lydChild cif = ⟨m, op⟩) :
    lydChild (markCreated cif) = ⟨m, some .create⟩ := by
  obtain ⟨nodes, inherited⟩ := cif
  cases nodes with
  | nil => simp [Ptr.isNull] at present
  | cons n rest =>
    have children : n.children = m := congrArg Ptr.nodes is
    rw [← children]
    cases n <;> rfl

theorem IfaceBody.not_nil (body : IfaceBody o) : o ≠ [] := by
  obtain ⟨_, _, found, _⟩ := body.required_leaf "name" rfl (by simp)
  rintro rfl
  simp [childOf] at found

/-- What was not there is created. -/
theorem Delta.op_created (delta : Delta old new dif) (was : old = .null) : lydxGetOp dif = .create := by
  cases delta with
  | created _ _ _ below => exact getOp_of below
  | changed there _ body _ _ =>
    rw [was] at there
    exact absurd (congrArg Ptr.nodes there).symm body.not_nil
  | deleted there _ body _ =>
    rw [was] at there
    exact absurd (congrArg Ptr.nodes there).symm body.not_nil

section Scripts
variable {base : String} {s : Running} {mid : Net} {change : Change} {plan : Plan} {u : Base Piece} {dif : Ptr} {x : String}

theorem Turns.names_of_old (turns : Turns cfg change) (member : dif ∈ ifaces change.diff) (was : lydxGetOp dif ≠ .create) :
    findCif (interfacesOf cfg) dif ∈ ifaces cfg := by
  unfold findCif
  cases found : (lyxListForEach (interfacesOf cfg) "interface").find? fun cif => ifaceName cif = ifaceName dif with
  | none =>
    refine absurd ((turns.delta member).op_created ?_) was
    rw [findCif, found]
    rfl
  | some cif => exact List.mem_of_find?_eq_some found

/-- What the difference of two configurations does not create was there. -/
theorem Turns.differs (turns : Turns cfg change) : Differs cfg change.diff where
  unique := turns.unique
  old dif member was := by
    have inside := turns.names_of_old member was
    exact ⟨_, inside, findCif_name _ dif (lyxListForEach_not_null inside)⟩

/-- An interface of the new configuration is not deleted. -/
theorem Turns.alive (turns : Turns cfg change) (changed : dif ∈ ifaces change.diff) (member : cif ∈ ifaces change.cfg)
    (name : ifaceName dif = ifaceName cif) : lydxGetOp dif ≠ .delete := by
  have delta := turns.delta changed
  rw [findCif_eq turns.new.unique member name] at delta
  cases delta with
  | created _ _ _ below => simp [getOp_of below]
  | changed _ _ _ _ below => simp [getOp_of below]
  | deleted _ is _ _ => simpa [is, Ptr.null, Ptr.isNull] using lyxListForEach_not_null member

theorem Accepted.own_init (accepted : Accepted base s.net change plan u mid)
    (names : NamesIn Plain change.cfg change.diff) (turns : Turns s.cfg change) (member : dif ∈ ifaces change.diff)
    (alive : lydxGetOp dif ≠ .delete) : ∃ skip, mid.initScript (ifaceName dif) =
      initPieces (isFixed s.net.kernel (ifaceName dif)) skip dif (findCif (interfacesOf change.cfg) dif) := by
  rw [← accepted.generated.all] at member
  obtain ⟨step, planned, rfl⟩ := List.mem_map.mp member
  have up := accepted.init_script names turns.unique planned
  rw [if_neg alive] at up
  exact ⟨step.2, up⟩

theorem Accepted.own_exit (accepted : Accepted base s.net change plan u mid) (positive : 0 < s.net.generations)
    (names : NamesIn Plain change.cfg change.diff) (turns : Turns s.cfg change) (member : dif ∈ ifaces change.diff)
    (alive : lydxGetOp dif ≠ .delete) : exitLines s mid [ifaceName dif] =
      if recreated dif (findCif (interfacesOf change.cfg) dif) then
        delPieces (ifaceName dif) (isFixed s.net.kernel (ifaceName dif)) else [] := by
  have drops : Drops change (ifaceName dif) ↔ recreated dif (findCif (interfacesOf change.cfg) dif) = true := by
    constructor
    · rintro ⟨other, changed, same, gone⟩
      obtain rfl := List.inj_on_of_nodup_map turns.unique changed member same
      simpa [dropped, alive] using gone
    · exact fun again => ⟨dif, member, rfl, by simp [dropped, again]⟩
  rw [exitLines, List.flatMap_singleton, accepted.exit_script positive names turns.unique, takedownOf,
    if_congr drops rfl rfl, delPieces]
  split
  · split <;> rfl
  · rfl

/-- The scripts of an interface that the transaction does not take down. -/
theorem Accepted.scripts (accepted : Accepted base s.net change plan u mid) (steady : Steady base s)
    (names : NamesIn Plain change.cfg change.diff) (turns : Turns s.cfg change) (member : dif ∈ ifaces change.diff)
    (alive : lydxGetOp dif ≠ .delete) : ∃ skip, linkLines s mid [ifaceName dif] [ifaceName dif] =
      (if recreated dif (findCif (interfacesOf change.cfg) dif) then
        delPieces (ifaceName dif) (isFixed s.net.kernel (ifaceName dif)) else []) ++
      initPieces (isFixed s.net.kernel (ifaceName dif)) skip dif (findCif (interfacesOf change.cfg) dif) := by
  obtain ⟨skip, up⟩ := accepted.own_init names turns member alive
  refine ⟨skip, ?_⟩
  rw [linkLines, List.flatMap_singleton, up]
  congr 1
  split
  · exact accepted.own_exit ‹_› names turns member alive
  · rename_i none
    -- Without a generation there was no interface that could be created again.
    have first : recreated dif (findCif (interfacesOf change.cfg) dif) = false := by
      by_contra again
      have was : lydxGetOp dif ≠ .create := by
        intro create
        simp [recreated, create] at again
      exact none (steady.nodes (turns.names_of_old member was)).1
    rw [first]
    rfl

/-- An interface that is not in the difference has no scripts. -/
theorem Accepted.no_scripts (accepted : Accepted base s.net change plan u mid)
    (names : NamesIn Plain change.cfg change.diff) (unique : ((ifaces change.diff).map ifaceName).Nodup)
    (unlisted : ∀ dif ∈ ifaces change.diff, ifaceName dif ≠ x) : linkLines s mid [x] [x] = [] := by
  have unplanned : x ∉ plan.map fun step => ifaceName step.1 := by
    rw [accepted.generated.names]
    intro listed
    obtain ⟨dif, member, same⟩ := List.mem_map.mp listed
    exact unlisted dif member same
  rw [linkLines, List.flatMap_singleton, accepted.init_unplanned names unplanned, List.append_nil]
  split
  · rename_i positive
    have kept : ¬Drops change x := fun ⟨dif, member, same, _⟩ => unlisted dif member same
    rw [exitLines, List.flatMap_singleton, accepted.exit_script positive names unique, takedownOf, if_neg kept]
    rfl
  · rfl

end Scripts

end Netdag
