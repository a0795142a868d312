import InfixOS.Netdag.Addresses
import InfixOS.Netdag.Transitions

/-! The addresses of an interface over a transaction. The CHANGE flushes those of
a family that is to have none, and the link scripts do the rest. -/
namespace Netdag
open Core Dagger Exec Exec.Program Keyed Lyx Posix Yang

def Kernel.addresses (k : Kernel) (family : Family) (x : String) : List String :=
  ((k.find x).map fun l => l.addresses family).getD []

theorem Link.addresses_flush (l : Link) (family family' : Family) :
    (l.flush family').addresses family = if family = family' then [] else l.addresses family := by
  cases family <;> cases family' <;> rfl

theorem Kernel.addresses_flush (k : Kernel) (family family' : Family) (x y : String) :
    (k.addrFlush family' y).addresses family x = if y = x ∧ family' = family then [] else k.addresses family x := by
  have found : (k.addrFlush family' y).find x = (k.find x).map fun l => if l.name = y then l.flush family' else l := by
    rw [find, find, addrFlush, List.find?_map]
    congr 2
    funext l
    by_cases named : l.name = y
    · cases family' <;> simp [named, Link.flush]
    · simp [named]
  rw [addresses, addresses, found]
  cases there : k.find x with
  | none => simp
  | some l =>
    have name : l.name = x := by simpa using List.find?_some there
    by_cases same : y = x
    · simp [name, same, Link.addresses_flush, eq_comm (a := family)]
    · simp [name, same, Ne.symm same]

section Flushes
variable {d : Handle} {cifs dif cif : Ptr} {family family' : Family} {x : String} {s t : GenState}

theorem addrs_addresses
    (ran : netdagGenIpAddrs (initFile d (ifaceName dif) (50, "init.ip")) family' cif dif s = (.ok (), t)) :
    t.kernel.addresses family x =
      if (ifaceName dif = x ∧ family' = family) ∧ familyEnabled family' cif = false then []
      else s.kernel.addresses family x := by
  cases enabled : familyEnabled family' cif with
  | true =>
    have same : t.kernel = s.kernel := (addrs_enabled enabled).apply ran
    simp [same]
  | false =>
    rw [addrs_disabled enabled] at ran
    rw [← (Prod.mk.inj ran).2, Kernel.addresses_flush]
    simp

/-- Only an interface that is deleted has no addresses to come. -/
theorem untilAddresses_none (returned : genUntilAddresses d dif cif s = (.ok none, t)) : lydxGetOp dif = .delete := by
  by_contra alive
  obtain ⟨_, _, _, rest⟩ := bind_ok.mp returned
  rw [if_neg alive] at rest
  obtain ⟨must, _, _, rest⟩ := bind_ok.mp rest
  cases must with
  | true =>
    obtain ⟨_, _, _, rest⟩ := bind_ok.mp rest
    obtain ⟨_, _, _, rest⟩ := bind_ok.mp rest
    exact absurd (pure_ok.mp rest).1 (by simp)
  | false =>
    obtain ⟨_, _, _, rest⟩ := bind_ok.mp rest
    exact absurd (pure_ok.mp rest).1 (by simp)

/-- The CHANGE flushes a family of an interface. -/
def Flushes (cifs : Ptr) (family : Family) (x : String) (dif : Ptr) : Prop :=
  lydxGetOp dif ≠ .delete ∧ ifaceName dif = x ∧ familyEnabled family (findCif cifs dif) = false

instance : Decidable (Flushes cifs family x dif) := inferInstanceAs (Decidable (_ ∧ _))

theorem iface_addresses (ran : netdagGenIface d dif (findCif cifs dif) s = (.ok (), t)) :
    t.kernel.addresses family x =
      if Flushes cifs family x dif then [] else s.kernel.addresses family x := by
  obtain ⟨result, u, linked, rest⟩ := bind_ok.mp ran
  have kept : u.kernel = s.kernel := (untilAddresses_kernel d cifs dif).apply linked
  cases result with
  | none =>
    have gone := untilAddresses_none linked
    rw [← (pure_ok.mp rest).2, kept, if_neg fun flushes => flushes.1 gone]
  | some pending =>
    have it := untilAddresses_pending (findCif_name cifs dif) linked
    simp only [it.file] at rest
    obtain ⟨_, v, first, rest⟩ := bind_ok.mp rest
    obtain ⟨_, w, second, admin⟩ := bind_ok.mp rest
    have last : t.kernel = w.kernel := admin_kernel.apply admin
    have flushed : Flushes cifs family x dif ↔
        ifaceName pending.dif = x ∧ familyEnabled family pending.cif = false := by
      rw [Flushes, it.named, it.enabled]
      exact and_iff_right it.kept
    rw [last, addrs_addresses second, addrs_addresses first, kept]
    cases family with
    | ipv4 => simp [flushed]
    | ipv6 => simp [flushed]

/-- Along the diff, by induction on it. -/
theorem ifaces_addresses (difs : List Ptr)
    (ran : forEach difs (fun dif => netdagGenIface d dif (findCif cifs dif)) s = (.ok (), t)) :
    t.kernel.addresses family x =
      if ∃ dif ∈ difs, Flushes cifs family x dif then [] else s.kernel.addresses family x := by
  induction difs generalizing s with
  | nil =>
    rw [← (pure_ok.mp ran).2]
    simp
  | cons dif rest ih =>
    obtain ⟨_, u, here, later⟩ := bind_ok.mp ran
    rw [ih later, iface_addresses here]
    by_cases first : Flushes cifs family x dif
    · simp [first]
    · simp [first]

end Flushes

/-- The addresses after the CHANGE. -/
theorem ifchange_addresses (accepted : ifchange base change net = (.ok, mid)) :
    mid.kernel.addresses family x =
      if ∃ dif ∈ ifaces change.diff, Flushes (interfacesOf change.cfg) family x dif then []
      else net.kernel.addresses family x := by
  obtain ⟨_, _, _, state, generated, left⟩ := ifchange_ok (by rw [accepted])
  rw [accepted] at left
  obtain ⟨_, u, init, rest⟩ := bind_ok.mp generated
  have same : u.kernel = net.kernel := (init_kernel _ _ _).apply init
  rw [show mid = _ from left, Net.put, ifaces_addresses _ rest, same]
  rfl

/-- An interface has the addresses it should have. The loopback may have its
standard address besides. -/
def Shows (family : Family) (x : String) (held : Finset String) (wanted : List String) : Prop :=
  (∀ a ∈ wanted, a ∈ held) ∧ ∀ a ∈ held, a ∈ wanted ∨ x = "lo" ∧ a = stdLo family

instance : Decidable (Shows family x held wanted) := inferInstanceAs (Decidable (_ ∧ _))

section Shows
variable {family : Family} {x : String} {held : Finset String} {old new : List String} {pieces : List Piece} {again : Prop}

theorem Shows.turned (shows : Shows family x held old) (new : List String) :
    Shows family x (new.toFinset ∪ held \ old.toFinset) new := by
  refine ⟨fun a member => Finset.mem_union_left _ (List.mem_toFinset.mpr member), fun a member => ?_⟩
  rcases Finset.mem_union.mp member with listed | kept
  · exact .inl (List.mem_toFinset.mp listed)
  · obtain ⟨inside, absent⟩ := Finset.mem_sdiff.mp kept
    exact .inr ((shows.2 a inside).resolve_left fun listed => absent (List.mem_toFinset.mpr listed))

/-- The standard address of the loopback is added although it is there. -/
def Doubled (family : Family) (x : String) (held : Finset String) (old new : List String) (again : Prop) : Prop :=
  x = "lo" ∧ stdLo family ∈ held ∧ stdLo family ∉ old ∧ stdLo family ∈ new ∧ again

/-- The lines for a family go through unless they add the standard address of the
loopback to itself. -/
theorem Brings.run_iff (brings : Brings family x pieces old new again) (unique : (old.map ipOf).Nodup)
    (unique' : (new.map ipOf).Nodup) (shows : Shows family x held old) :
    runAll held (pieces.flatMap (Piece.edits family x)) = some after ↔
      ¬Doubled family x held old new again ∧ after = new.toFinset ∪ held \ old.toFinset := by
  obtain ⟨turns, makes, patch, same, std⟩ := brings
  rw [same, patch.run_iff unique unique' shows.1]
  refine and_congr_left fun _ => ?_
  constructor
  · rintro fine ⟨lo, there, absent, listed, again⟩
    exact absent (fine _ ((std lo absent).mpr ⟨listed, again⟩) there)
  · intro single b add there
    by_contra absent
    obtain ⟨lo, rfl⟩ := (shows.2 b there).resolve_left absent
    exact single ⟨lo, there, absent, (std lo absent).mp add⟩

/-- Before the addresses the link may be added, after them it may come up. -/
theorem Brings.run_within (brings : Brings family x pieces old new again) (unique : (old.map ipOf).Nodup)
    (unique' : (new.map ipOf).Nodup) (shows : Shows family x held old)
    (after : List (Edit String)) (up : ∀ e ∈ after, x = "lo" ∧ e = .put (stdLo family)) :
    (∃ last, runAll held (pieces.flatMap (Piece.edits family x) ++ after) = some last ∧ Shows family x last new) ↔
      ¬Doubled family x held old new again := by
  have later (mid : Finset String) (shown : Shows family x mid new) :
      ∃ last, runAll mid after = some last ∧ Shows family x last new := by
    induction after generalizing mid with
    | nil => exact ⟨mid, rfl, shown⟩
    | cons e rest ih =>
      obtain ⟨⟨lo, rfl⟩, others⟩ := List.forall_mem_cons.mp up
      refine ih others (insert (stdLo family) mid) ⟨fun a member => Finset.mem_insert_of_mem (shown.1 a member), ?_⟩
      intro a member
      rcases Finset.mem_insert.mp member with rfl | inside
      · exact .inr ⟨lo, rfl⟩
      · exact shown.2 a inside
  constructor
  · rintro ⟨last, ran, _⟩
    obtain ⟨mid, first, _⟩ := runAll_append_eq_some.mp ran
    exact ((brings.run_iff unique unique' shows).mp first).1
  · intro single
    obtain ⟨last, ran, shown⟩ := later _ (shows.turned new)
    exact ⟨last, runAll_append_eq_some.mpr ⟨_, (brings.run_iff unique unique' shows).mpr ⟨single, rfl⟩, ran⟩, shown⟩

theorem runAll_clears (edits : List (Edit String)) (clears : ∀ e ∈ edits, e = .clear) (held : Finset String) :
    ∃ after, runAll held edits = some after ∧ (after = held ∨ after = ∅) ∧ (edits ≠ [] → after = ∅) := by
  induction edits generalizing held with
  | nil => exact ⟨held, rfl, .inl rfl, by simp⟩
  | cons e rest ih =>
    obtain ⟨rfl, others⟩ := List.forall_mem_cons.mp clears
    obtain ⟨after, ran, kept, _⟩ := ih others ∅
    have none : after = ∅ := by simpa using kept
    exact ⟨after, ran, .inr none, fun _ => none⟩

end Shows

section Scripts
variable {family : Family} {cif dif : Ptr} {skip : Bool} {op : Operation}

/-- Each piece of the line that adds a link creates it or names nothing. -/
theorem add_pieces (member : piece ∈ addPieces skip cif) : piece.creates ≠ [] ∨ piece.names = [] := by
  unfold addPieces at member
  split at member
  · obtain rfl := List.mem_singleton.mp member
    exact .inl (by simp [Piece.creates])
  · split at member
    · split at member
      · simp at member
      · obtain rfl := List.mem_singleton.mp member
        exact .inl (by simp [Piece.creates])
    · split at member
      · unfold vlanLine at member
        simp only at member
        generalize outerTag (if Ptr.null.isNull = true then cif else .null) = otag at member
        split at member
        · obtain ⟨tail, pieces, quiet⟩ := vlan_pieces (ifaceName cif) (lydxGetCattr cif "parent-interface") otag
          rw [pieces] at member
          rcases List.mem_cons.mp member with rfl | later
          · exact .inl (by simp [Piece.creates])
          · exact .inr (quiet piece later).2
        · simp at member
      · simp at member

theorem edits_unnamed {piece : Piece} (unnamed : x ∉ piece.names) : piece.edits family x = [] := by
  cases piece <;> simp_all [Piece.names, Piece.edits, eq_comm]

/-- A new link has no addresses. -/
theorem edits_creates {piece : Piece} (makes : piece.creates ≠ []) : ∀ e ∈ piece.edits family x, e = .clear := by
  intro e member
  cases piece <;> simp_all [Piece.creates, Piece.edits]

theorem add_clears (family : Family) (x : String) (skip : Bool) (cif : Ptr) :
    ∀ e ∈ (addPieces skip cif).flatMap (Piece.edits family x), e = .clear := by
  intro e member
  obtain ⟨piece, listed, edit⟩ := List.mem_flatMap.mp member
  rcases add_pieces listed with makes | unnamed
  · exact edits_creates makes e edit
  · have none : piece.edits family x = [] := edits_unnamed (by simp [unnamed])
    simp [none] at edit

/-- What a script that sets an interface up does about the addresses of a family. -/
theorem setup_edits (fixed skip : Bool)
    (quiet : op ≠ .create → (setPieces dif cif).flatMap (Piece.edits family (ifaceName dif)) = [])
    (others : ∀ family', family' ≠ family → (addressPieces family' cif dif).flatMap (Piece.edits family (ifaceName dif)) = []) :
    ∃ first last, (setupPieces fixed skip op dif cif).flatMap (Piece.edits family (ifaceName dif)) =
        first ++ ((addressPieces family cif dif).flatMap (Piece.edits family (ifaceName dif)) ++ last) ∧
      (∀ e ∈ first, e = .clear) ∧ (op ≠ .create → first = []) ∧
      ∀ e ∈ last, ifaceName dif = "lo" ∧ e = .put (stdLo family) := by
  have mode : (ipv6AutoconfPieces cif dif).flatMap (Piece.edits family (ifaceName dif)) = [] := by
    unfold ipv6AutoconfPieces
    split <;> simp [Piece.edits]
  have port : (portPieces cif).flatMap (Piece.edits family (ifaceName dif)) = [] := by
    unfold portPieces
    split <;> simp [Piece.edits]
  have set : (if !fixed && op ≠ .create then setPieces dif cif else []).flatMap (Piece.edits family (ifaceName dif)) = [] := by
    split
    · rename_i changed
      simp only [Bool.and_eq_true, decide_eq_true_eq] at changed
      exact quiet changed.2
    · rfl
  have both : (addressPieces .ipv4 cif dif ++ addressPieces .ipv6 cif dif).flatMap (Piece.edits family (ifaceName dif)) =
      (addressPieces family cif dif).flatMap (Piece.edits family (ifaceName dif)) := by
    rw [List.flatMap_append]
    cases family with
    | ipv4 => rw [others .ipv6 (by simp), List.append_nil]
    | ipv6 => rw [others .ipv4 (by simp), List.nil_append]
  refine ⟨(if !fixed && op = .create then addPieces skip cif else []).flatMap (Piece.edits family (ifaceName dif)),
    (upPieces dif cif).flatMap (Piece.edits family (ifaceName dif)), ?_, ?_, ?_, ?_⟩
  · simp only [setupPieces, List.flatMap_append, mode, port, set, List.append_assoc] at both ⊢
    rw [← List.append_assoc ((addressPieces .ipv4 cif dif).flatMap _), both]
    simp [Piece.edits]
  · intro e member
    split at member
    · exact add_clears _ _ skip cif e member
    · simp at member
  · intro other
    simp [other]
  · intro e member
    unfold upPieces at member
    split at member
    · rw [List.flatMap_singleton] at member
      simp only [Piece.edits] at member
      split at member
      · rename_i lo
        exact ⟨lo.2, by simpa using member⟩
      · simp at member
    · simp at member

end Scripts

section Deltas
variable {family family' : Family} {cif dif : Ptr} {o m : List Node} {op op' : Option Operation} {held : Finset String}

theorem addressPieces_off (is : lydChild cif = ⟨m, op⟩) (off : familyOn family m = false) (dif : Ptr) :
    addressPieces family cif dif = [] := by
  rw [addressPieces, familyEnabled_of is, off]
  rfl

theorem brings_nothing (x : String) : Brings family x [] [] [] False :=
  ⟨[], [], ⟨rfl, rfl, by simp, by simp⟩, rfl, by simp [patchEdits]⟩

/-- The addresses of an interface that is created. -/
theorem brings_created (is : lydChild cif = ⟨m, op⟩) (body : IfaceBody m) (below : lydChild dif = ⟨m, some .create⟩)
    (family family' : Family) :
    Brings family (ifaceName dif) (addressPieces family cif dif) [] (listOn family m) False ∧
      (family ≠ family' → (addressPieces family cif dif).flatMap (Piece.edits family' (ifaceName dif)) = []) := by
  cases on : familyOn family m with
  | false =>
    rw [addressPieces_off is on, listOn, on]
    exact ⟨brings_nothing _, fun _ => rfl⟩
  | true =>
    cases found : childOf m family.proto with
    | none => simp [familyOn, found] at on
    | some n =>
      obtain ⟨c, rfl, _⟩ := body.family found
      have list : listOn family m = addressList family m := by rw [listOn, if_pos on]
      rw [list]
      refine addressPieces_created is body on found ?_ family'
      rw [getChild_below below, found]
      rfl

theorem listOn_unique (body : IfaceBody m) (family : Family) : ((listOn family m).map ipOf).Nodup := by
  unfold listOn
  split
  · unfold addressList
    cases found : childOf m family.proto with
    | none => simp
    | some n =>
      obtain ⟨c, rfl, fine⟩ := body.family found
      exact fine.unique
  · simp

/-- A script that sets an interface up as new, on a link without configured
addresses. -/
theorem created_shows (is : lydChild cif = ⟨m, op⟩) (body : IfaceBody m) (below : lydChild dif = ⟨m, some .create⟩)
    (fixed skip : Bool) (shows : Shows family (ifaceName dif) held []) :
    ∃ after, runAll held ((setupPieces fixed skip .create dif cif).flatMap (Piece.edits family (ifaceName dif))) = some after ∧
      Shows family (ifaceName dif) after (listOn family m) := by
  obtain ⟨first, last, edits, clears, _, up⟩ := setup_edits fixed skip (fun other => absurd rfl other)
    fun family' other => (brings_created is body below family' family).2 other
  obtain ⟨mid, ran, kept, _⟩ := runAll_clears first clears held
  have shown : Shows family (ifaceName dif) mid [] := by
    rcases kept with rfl | rfl
    · exact shows
    · exact ⟨by simp, by simp⟩
  have brings := (brings_created is body below family family).1
  obtain ⟨after, later, result⟩ :=
    (brings.run_within (by simp) (listOn_unique body family) shown last up).mpr fun doubled => doubled.2.2.2.2
  exact ⟨after, by rw [edits, runAll_append, ran]; exact later, result⟩

/-- The same on a link that has just been deleted or flushed. -/
theorem recreated_shows (is : lydChild cif = ⟨m, op⟩) (present : cif.isNull = false) (body : IfaceBody m)
    (fixed skip : Bool) (held : Finset String) (name : ifaceName cif = x) :
    ∃ after, runAll held ((delPieces x fixed ++ setupPieces fixed skip .create (markCreated cif) (markCreated cif)).flatMap
      (Piece.edits family x)) = some after ∧ Shows family x after (listOn family m) := by
  subst name
  have below := markCreated_below present is
  have cleared : runAll held ((delPieces (ifaceName cif) fixed).flatMap (Piece.edits family (ifaceName cif))) = some ∅ := by
    cases fixed <;> simp [delPieces, Piece.edits, Edit.run]
  have bare : Shows family (ifaceName (markCreated cif)) ∅ [] := ⟨by simp, by simp⟩
  obtain ⟨after, ran, shown⟩ := created_shows below body below fixed skip bare
  rw [markCreated_name] at ran shown
  exact ⟨after, by rw [List.flatMap_append, runAll_append, cleared]; exact ran, shown⟩

/-- Nothing about the addresses of two configurations differs. -/
theorem listOn_same (body : IfaceBody o) (body' : IfaceBody m) (same : diffSiblings o m = []) (a : String) :
    a ∈ listOn family o ↔ a ∈ listOn family m := by
  have differs : diffOf (childOf o family.proto) (childOf m family.proto) = none := by
    rw [← childOf_diffSiblings (body.alone_family family) (body'.alone_family family), same]
    rfl
  cases was : childOf o family.proto with
  | none =>
    cases is : childOf m family.proto with
    | none => simp [listOn, familyOn, was, is]
    | some n => simp [was, is, diffOf] at differs
  | some k =>
    cases is : childOf m family.proto with
    | none => simp [was, is, diffOf] at differs
    | some n =>
      obtain ⟨b, rfl, fine⟩ := body.family was
      obtain ⟨c, rfl, fine'⟩ := body'.family is
      rw [was, is, diffOf] at differs
      have none : diffSiblings b c = [] := diffNode_inner_eq_none.mp differs
      have enabled : valueOf b "enabled" = valueOf c "enabled" := by
        have below : lydChild .null = ⟨diffSiblings b c, .none⟩ := by rw [none]; rfl
        by_contra other
        exact absurd ((enabled_replaced fine fine' below).mpr other) (by decide)
      have on : familyOn family o = familyOn family m := by
        rw [familyOn, familyOn, was, is]
        exact congrArg (fun value => decide (value = some "true")) enabled
      obtain ⟨turns, makes, patch, _, edits⟩ := patch_changed fine fine' "" .none
      have texts : ((addressNodes b).map nodeText).toFinset = ((addressNodes c).map nodeText).toFinset := by
        have ran : runAll ((addressNodes b).map nodeText).toFinset (patchEdits turns makes) =
            some ((addressNodes b).map nodeText).toFinset := by
          rw [← edits, none]
          rfl
        have result := ((patch.run_iff fine.unique fine'.unique fun t member => List.mem_toFinset.mpr member).mp ran).2
        simpa using result
      have list := Finset.ext_iff.mp texts a
      rw [List.mem_toFinset, List.mem_toFinset] at list
      rw [listOn, listOn, on, addressList, addressList, was, is]
      split
      · exact list
      · rfl

end Deltas

theorem set_edits (alive : lydxGetOp dif ≠ .create) (kept : recreated dif cif = false) (present : dif.isNull = false)
    (family : Family) (x : String) : (setPieces dif cif).flatMap (Piece.edits family x) = [] := by
  unfold setPieces
  split
  · simp [Piece.edits]
  · split
    · rename_i type
      rw [vlanLine_kept alive kept present type]
      rfl
    · rfl

/-- The old configuration has the family, but not the standard address of the
loopback, which the new one has: the family was disabled, or the address had
another prefix length. -/
def Readds (family : Family) (old new : Ptr) : Prop :=
  stdLo family ∉ effective family old ∧ stdLo family ∈ effective family new ∧
    (lydxGetChild old family.proto).isNull = false ∧
    (familyEnabled family old = true → ipOf (stdLo family) ∈ (effective family old).map ipOf)

section Owned
variable {family : Family} {old cif dif : Ptr} {o m : List Node} {op op' : Option Operation} {held : Finset String}

theorem effective_eq (below : lydChild cif = ⟨m, op⟩) : effective family cif = listOn family m := effective_of below

theorem readds_iff (was : lydChild old = ⟨o, op⟩) (is : lydChild cif = ⟨m, op'⟩) : Readds family old cif ↔
    stdLo family ∉ listOn family o ∧ stdLo family ∈ listOn family m ∧ Again family o := by
  rw [Readds, effective_eq was, effective_eq is, familyEnabled_of was, isNull_eq, (getChild_of was _).1, Again]
  refine and_congr_right fun _ => and_congr_right fun _ => and_congr ?_ ?_
  · cases childOf o family.proto <;> simp
  · refine imp_congr_right fun on => ?_
    rw [listOn, if_pos on]

/-- The script of an interface that is kept. -/
theorem changed_shows_iff (is : lydChild cif = ⟨m, none⟩) (body : IfaceBody o) (body' : IfaceBody m)
    (below : lydChild dif = ⟨keyLeaves ["name"] o ++ diffSiblings o m, some .none⟩) (present : dif.isNull = false)
    (kept : recreated dif cif = false) (fixed skip : Bool)
    (shows : Shows family (ifaceName dif) held (listOn family o)) :
    (∃ after, runAll (if familyOn family m then held else ∅)
        ((setupPieces fixed skip .none dif cif).flatMap (Piece.edits family (ifaceName dif))) = some after ∧
      Shows family (ifaceName dif) after (listOn family m)) ↔
    ¬Doubled family (ifaceName dif) held (listOn family o) (listOn family m) (Again family o) := by
  have alive : lydxGetOp dif ≠ .create := by
    rw [getOp_of below]
    decide
  have others (family' : Family) (other : family' ≠ family) :
      (addressPieces family' cif dif).flatMap (Piece.edits family (ifaceName dif)) = [] := by
    cases on : familyOn family' m with
    | false =>
      rw [addressPieces_off is on]
      rfl
    | true => exact (addressPieces_changed is body body' below on family).2 other
  obtain ⟨first, last, edits, _, none, up⟩ := setup_edits fixed skip
    (fun _ => set_edits alive kept present family (ifaceName dif)) others
  rw [edits, none (by decide), List.nil_append]
  cases on : familyOn family m with
  | true =>
    have list : listOn family m = addressList family m := by rw [listOn, if_pos on]
    have unique' := listOn_unique body' family
    rw [if_pos rfl]
    rw [list] at unique' ⊢
    exact (addressPieces_changed is body body' below on family).1.run_within (listOn_unique body family)
      unique' shows last up
  | false =>
    have list : listOn family m = [] := by rw [listOn, on]; rfl
    have bare : Shows family (ifaceName dif) ∅ [] := ⟨by simp, by simp⟩
    rw [addressPieces_off is on, list, if_neg (by simp)]
    rw [(brings_nothing (ifaceName dif)).run_within (by simp) (by simp) bare last up]
    simp [Doubled]

/-- An interface that has an entry in the diff is flushed if its family is off. -/
theorem Turns.flushes_iff (turns : Turns cfg change) (changed : dif ∈ ifaces change.diff) (member : cif ∈ ifaces change.cfg)
    (name : ifaceName dif = ifaceName cif) :
    (∃ dif' ∈ ifaces change.diff, Flushes (interfacesOf change.cfg) family (ifaceName cif) dif') ↔
      familyEnabled family cif = false := by
  constructor
  · rintro ⟨dif', _, _, same, off⟩
    rwa [findCif_eq turns.new.unique member same] at off
  · exact fun off => ⟨dif, changed, turns.alive changed member name, name,
      by rw [findCif_eq turns.new.unique member name, off]⟩

end Owned

/-- The configuration of a family of addresses, without autoconfiguration. -/
def ipv4Node (enabled : String) (addresses : List (String × String)) : Node :=
  .inner "ipv4" [] .plain (.leaf "enabled" enabled (enabled = "true") .plain ::
    addresses.map (fun (ip, len) =>
      addressNode [.leaf "ip" ip false .plain, .leaf "prefix-length" len false .plain]) ++
    [.inner "autoconf" [] .plain [.leaf "enabled" "false" true .plain]])

def ethernetType : String := "iana-if-type:ethernetCsmacd"

def lan (addresses : List (String × String)) : List Node :=
  interfaces [ifaceEntry "eth0" ethernetType [ipv4Node "true" addresses]]

/-- A port with two addresses. -/
def lanRunning : Running := (Running.boot twoPorts).to (lan [("192.0.2.1", "24"), ("192.0.2.2", "24")])
  ⟨[⟨"eth0", .ether, ["192.0.2.1/24", "192.0.2.2/24"], []⟩]⟩

/-- The CHANGE to another prefix for the first address and another second one. -/
def lanChange : Change := changeTo lanRunning.cfg (lan [("192.0.2.1", "16"), ("192.0.2.3", "24")])

def lanChanged : Net := (ifchange "/run/net" lanChange lanRunning.net).2

/-- The loopback with its standard address, in a family that is switched off. -/
def loopback (enabled : String) : List Node :=
  interfaces [ifaceEntry "lo" "iana-if-type:softwareLoopback" [ipv4Node enabled [("127.0.0.1", "8")]]]

def loopbackRunning : Running := (Running.boot twoPorts).to (loopback "false")
  ⟨[⟨"lo", .loopback, ["127.0.0.1/8"], []⟩]⟩

end Netdag
