import InfixOS.Keyed.Edits
import InfixOS.Netdag.Contents
import InfixOS.Netdag.Entries

/-! The addresses of an interface. What the generator prints for a family of
addresses is a patch from the addresses of the old configuration to those of the
new one. -/
namespace Netdag
open Keyed Lyx Yang

/-- An address as the kernel shows it. -/
def addressText (ip len : Option String) : String := str ip ++ "/" ++ str len

/-- The address without the length of its prefix. -/
def ipOf (address : String) : String := String.ofList (address.toList.takeWhile (· ≠ '/'))

theorem ipOf_text (plain : '/' ∉ ip.toList) (len : Option String) : ipOf (addressText (some ip) len) = ip := by
  have whole : (ip.toList.takeWhile (· ≠ '/')) = ip.toList := by
    rw [List.takeWhile_eq_self_iff]
    intro c member
    simpa using fun same : c = '/' => plain (same ▸ member)
  rw [ipOf, addressText, str, Option.getD_some, String.toList_append, String.toList_append, List.append_assoc,
    List.takeWhile_append, whole, if_pos rfl]
  simp

theorem addressText_inj (same : addressText (some ip) (some len) = addressText (some ip) (some len')) : len = len' := by
  simpa [addressText, str] using same

/-- The family that `ip` takes an address to be of. -/
def familyOf (ip : String) : Family := if ip.toList.contains ':' then .ipv6 else .ipv4

/-- The address that the kernel gives the loopback when it comes up. -/
def stdLo : Family → String
  | .ipv4 => "127.0.0.1/8"
  | .ipv6 => "::1/128"

/-- What a piece of a link script does to the addresses of the interface `x`. -/
def Piece.edits (family : Family) (x : String) : Piece → List (Edit String)
  | .addressDelete ip len y =>
    if y = x ∧ familyOf (str ip) = family then [.delete (addressText ip len)] else []
  | .addressAdd command ip len y =>
    if y = x ∧ familyOf (str ip) = family then
      if command = "replace" then [.put (addressText ip len)] else [.add (addressText ip len)]
    else []
  | .exitFlush y | .linkDel y | .linkAddBridge y _ | .linkAddVlan y _ => if y = x then [.clear] else []
  | .linkAddVeth y peer => if y = x ∨ str peer = x then [.clear] else []
  | .linkSetUp y => if y = x ∧ y = "lo" then [.put (stdLo family)] else []
  | _ => []

/-- The addresses an interface is configured to have. -/
def effective (family : Family) (cif : Ptr) : List String :=
  if familyEnabled family cif then
    (lyxListForEach (lydChild (lydxGetChild cif family.proto)) "address").map fun addr =>
      addressText (lydxGetCattr addr "ip") (lydxGetCattr addr "prefix-length")
  else []

/-- The addresses among the children of a family's container. -/
def addressNodes (children : List Node) : List Node := children.filter fun n => n.name = "address"

def nodeText (n : Node) : String := addressText (valueOf n.children "ip") (valueOf n.children "prefix-length")

/-- The family's container among the children of an interface, with what is below
it. -/
def familyOn (family : Family) (children : List Node) : Bool :=
  match childOf children family.proto with
  | none => false
  | some ip => valueOf ip.children "enabled" = some "true"

def addressList (family : Family) (children : List Node) : List String :=
  match childOf children family.proto with
  | none => []
  | some ip => (addressNodes ip.children).map nodeText

theorem familyEnabled_of (below : lydChild cif = ⟨children, op⟩) : familyEnabled family cif = familyOn family children := by
  rw [familyEnabled, lydxIsEnabled, isNull_eq, (getChild_of below _).1, getCattr_eq, getChild_below below, familyOn]
  cases childOf children family.proto with
  | none => rfl
  | some ip => rfl

theorem effective_of (below : lydChild cif = ⟨children, op⟩) :
    effective family cif = if familyOn family children then addressList family children else [] := by
  rw [effective, familyEnabled_of below]
  refine ite_congr rfl (fun _ => ?_) fun _ => rfl
  rw [map_forEach _ _ _ nodeText fun n rest _ _ => by rw [lydxGetCattr_eq, lydxGetCattr_eq, nodeText],
    getChild_below below, addressList]
  cases childOf children family.proto with
  | none => rfl
  | some ip => rfl

/-- The children of a family's container. -/
abbrev FamilyBody (family : Family) (children : List Node) : Prop :=
  Body ["enabled", "autoconf"] false true (familySub family) children

theorem IfaceBody.family {family : Family} (body : IfaceBody children) (found : childOf children family.proto = some n) :
    ∃ below, n = .inner family.proto [] .plain below ∧ FamilyBody family below := by
  cases family with
  | ipv4 => exact body.child_inner rfl found
  | ipv6 => exact body.child_inner rfl found

/-- An entry of the address list of a family. -/
structure AddressEntry (family : Family) (ip len : String) (children : List Node) : Prop where
  body : Body ["ip", "prefix-length"] true false (addressSub family) children
  ipLeaf : childOf children "ip" = some (.leaf "ip" ip false .plain)
  lenLeaf : childOf children "prefix-length" = some (.leaf "prefix-length" len false .plain)
  fine : isAddress family ip = true

def addressNode (children : List Node) : Node := .inner "address" ["ip"] .plain children

theorem FamilyBody.address (body : FamilyBody family below) (member : n ∈ addressNodes below) :
    ∃ children ip len, n = addressNode children ∧ AddressEntry family ip len children := by
  obtain ⟨member, named⟩ := List.mem_filter.mp member
  rw [decide_eq_true_eq] at named
  have schema : (familySub family).lookup n.name =
      some (.inner ["ip"] ["ip", "prefix-length"] true false (addressSub family)) := by rw [named]; rfl
  obtain ⟨name, children, rfl, body'⟩ := conforms_inner.mp (body.each member schema)
  obtain rfl : name = "address" := named
  obtain ⟨ip, flag, found, fine, unset⟩ := body'.required_leaf "ip" rfl (by simp)
  obtain ⟨len, flag', found', _, unset'⟩ := body'.required_leaf "prefix-length" rfl (by simp)
  obtain rfl : flag = false := by simpa using unset
  obtain rfl : flag' = false := by simpa using unset'
  exact ⟨children, ip, len, rfl, body', found, found', fine⟩

namespace AddressEntry
variable {family : Family} {ip len : String} {children children' : List Node}

theorem no_slash (entry : AddressEntry family ip len children) : '/' ∉ ip.toList := by
  have fine := entry.fine
  cases family with
  | ipv4 => simpa using ((Bool.and_eq_true _ _).mp fine).2
  | ipv6 => simpa using ((Bool.and_eq_true _ _).mp fine).2

theorem family_eq (entry : AddressEntry family ip len children) : familyOf ip = family := by
  have fine := entry.fine
  unfold familyOf
  cases family with
  | ipv4 =>
    simp only [isAddress, Bool.and_eq_true, Bool.not_eq_true'] at fine
    rw [if_neg (by rw [fine.1]; exact Bool.false_ne_true)]
  | ipv6 =>
    simp only [isAddress, Bool.and_eq_true] at fine
    rw [if_pos fine.1]

theorem key (entry : AddressEntry family ip len children) : (addressNode children).key = ("address", [some ip]) := by
  simp [addressNode, Node.key, valueOf_eq, entry.ipLeaf, Node.value]

theorem text (entry : AddressEntry family ip len children) :
    nodeText (addressNode children) = addressText (some ip) (some len) := by
  simp [nodeText, addressNode, Node.children, valueOf_eq, entry.ipLeaf, entry.lenLeaf, Node.value]

theorem ip_eq (entry : AddressEntry family ip len children) : ipOf (nodeText (addressNode children)) = ip := by
  rw [entry.text, ipOf_text entry.no_slash]

/-- The standard address of the loopback. -/
theorem std_iff (entry : AddressEntry family ip len children) (x : String) :
    isStdLoAddr x (some ip) (some len) = true ↔ x = "lo" ∧ nodeText (addressNode children) = stdLo family := by
  have texts (ip' len' : String) (plain : '/' ∉ ip'.toList) :
      addressText (some ip) (some len) = addressText (some ip') (some len') ↔ ip = ip' ∧ len = len' := by
    constructor
    · intro same
      have first := congrArg ipOf same
      rw [ipOf_text entry.no_slash, ipOf_text plain] at first
      subst first
      exact ⟨rfl, addressText_inj same⟩
    · rintro ⟨rfl, rfl⟩
      rfl
  have fine := entry.fine
  rw [entry.text]
  simp only [isStdLoAddr, Bool.and_eq_true, Bool.or_eq_true, decide_eq_true_eq, Option.some.injEq]
  refine and_congr_right fun _ => ?_
  cases family with
  | ipv4 =>
    rw [show stdLo .ipv4 = addressText (some "127.0.0.1") (some "8") from rfl, texts _ _ (by decide)]
    refine or_iff_left ?_
    rintro ⟨rfl, _⟩
    simp [isAddress] at fine
  | ipv6 =>
    rw [show stdLo .ipv6 = addressText (some "::1") (some "128") from rfl, texts _ _ (by decide)]
    refine or_iff_right ?_
    rintro ⟨rfl, _⟩
    simp [isAddress] at fine

end AddressEntry

/-- The addresses of a list are told apart by their first part. -/
theorem FamilyBody.unique (body : FamilyBody family below) :
    (((addressNodes below).map nodeText).map ipOf).Nodup := by
  rw [List.map_map]
  refine (body.distinct.of_map.filter _).map_on fun a member b member' same => ?_
  obtain ⟨_, ip, _, rfl, entry⟩ := body.address member
  obtain ⟨_, ip', _, rfl, entry'⟩ := body.address member'
  rw [Function.comp_apply, Function.comp_apply, entry.ip_eq, entry'.ip_eq] at same
  refine List.inj_on_of_nodup_map body.distinct (List.mem_filter.mp member).1 (List.mem_filter.mp member').1 ?_
  rw [entry.key, entry'.key, same]

/-- A new address, which on the loopback may be there already. -/
def makeEdit (family : Family) (x : String) (address : String) : Edit String :=
  if x = "lo" ∧ address = stdLo family then .put address else .add address

section DiffEdits
variable {family : Family} {ip len len' : String} {children children' : List Node} {op : Option Operation}

/-- A leaf that has no operation of its own. -/
theorem getDiff_plain (below : lydChild addr = ⟨nodes, some o⟩)
    (leaf : childOf nodes name = some (.leaf name value false .plain)) :
    (lydxGetDiff (lydxGetChild addr name)).old = (if o = .create then none else some value) ∧
      (lydxGetDiff (lydxGetChild addr name)).new = if o = .delete then none else some value := by
  have node := (getChild_of below name).1.trans leaf
  have op : lydxGetOp (lydxGetChild addr name) = o := by
    rw [lydxGetOp, getChild_operation below, leaf]
    rfl
  rw [getDiff_old node, getDiff_new node, op]
  cases o <;> simp [Node.value, Node.data, Meta.plain]

theorem diffPieces_delete (entry : AddressEntry family ip len children) :
    diffAddrPieces x ⟨[(addressNode children).mark .delete], op⟩ = [.addressDelete (some ip) (some len) x] := by
  have below : lydChild ⟨[(addressNode children).mark .delete], op⟩ = ⟨children, some .delete⟩ := rfl
  rw [diffAddrPieces, (getDiff_plain below entry.ipLeaf).1, (getDiff_plain below entry.lenLeaf).1]
  rfl

/-- The address is created, alone or with what it is in. -/
theorem diffPieces_create (entry : AddressEntry family ip len children)
    (below : lydChild ⟨[n], op⟩ = ⟨children, some .create⟩) :
    diffAddrPieces x ⟨[n], op⟩ =
      [.addressAdd (if isStdLoAddr x (some ip) (some len) then "replace" else "add") (some ip) (some len) x] := by
  have created : lydxGetOp ⟨[n], op⟩ = .create := by
    rw [lydxGetOp, show Ptr.operation ⟨[n], op⟩ = some .create from congrArg Ptr.inherited below]
    rfl
  rw [diffAddrPieces, created, (getDiff_plain below entry.ipLeaf).2, (getDiff_plain below entry.lenLeaf).2]
  simp

/-- Of an address only the prefix length can change. -/
theorem diffNode_address (entry : AddressEntry family ip len children) (entry' : AddressEntry family ip len' children') :
    childOf (diffSiblings children children') "ip" = none ∧
      childOf (diffSiblings children children') "prefix-length" =
        if len = len' then none else some (.leaf "prefix-length" len' false ⟨some .replace, some len, some false⟩) := by
  rw [childOf_diffSiblings (entry.body.alone rfl rfl) (entry'.body.alone rfl rfl),
    childOf_diffSiblings (entry.body.alone rfl rfl) (entry'.body.alone rfl rfl), entry.ipLeaf, entry'.ipLeaf,
    entry.lenLeaf, entry'.lenLeaf, diffOf, diffOf, diffNode, diffNode]
  by_cases same : len = len'
  · simp [same, Node.value, Node.isDefault]
  · simp [same, Node.value, Node.isDefault]

theorem diffSiblings_address (entry : AddressEntry family ip len children) (entry' : AddressEntry family ip len' children') :
    diffSiblings children children' = [] ↔ len = len' := by
  obtain ⟨noIp, lens⟩ := diffNode_address entry entry'
  rw [entry.body.diff_nil entry'.body]
  constructor
  · intro none
    have gone := none "prefix-length" rfl
    rw [lens] at gone
    by_contra other
    simp [other] at gone
  · intro same name known
    by_cases ip : name = "ip"
    · exact ip ▸ noIp
    · by_cases length : name = "prefix-length"
      · rw [length, lens, if_pos same]
      · simp [addressSub, List.lookup, beq_eq_false_iff_ne.mpr ip, beq_eq_false_iff_ne.mpr length] at known

theorem diffPieces_change (entry : AddressEntry family ip len children) (entry' : AddressEntry family ip len' children')
    (differs : diffNode (addressNode children) (addressNode children') = some n) :
    diffAddrPieces x ⟨[n], op⟩ =
      [.addressDelete (some ip) (some len) x, .addressAdd "add" (some ip) (some len') x] := by
  obtain ⟨changed, rfl⟩ := diffNode_inner_eq_some.mp differs
  replace changed : diffSiblings children children' ≠ [] := changed
  have other : len ≠ len' := fun same => changed ((diffSiblings_address entry entry').mpr same)
  generalize node : Node.inner "address" ["ip"] ⟨some .none, none, none⟩
    (keyLeaves ["ip"] children ++ diffSiblings children (addressNode children').children) = n
  have below : lydChild ⟨[n], op⟩ = ⟨keyLeaves ["ip"] children ++ diffSiblings children children', some .none⟩ := by
    rw [← node]
    rfl
  have ipLeaf : childOf (keyLeaves ["ip"] children ++ diffSiblings children children') "ip" =
      some (.leaf "ip" ip false .plain) := by
    rw [childOf_append, childOf_keyLeaves, if_pos (by simp), entry.ipLeaf]
    rfl
  have lenLeaf : childOf (keyLeaves ["ip"] children ++ diffSiblings children children') "prefix-length" =
      some (.leaf "prefix-length" len' false ⟨some .replace, some len, some false⟩) := by
    rw [childOf_append, childOf_keyLeaves, if_neg (by simp), (diffNode_address entry entry').2, if_neg other]
    rfl
  obtain ⟨first, first'⟩ := getDiff_plain below ipLeaf
  have second := (getChild_of below "prefix-length").1.trans lenLeaf
  have replaced : lydxGetOp (lydxGetChild ⟨[n], op⟩ "prefix-length") = .replace := by
    rw [lydxGetOp, getChild_operation below, lenLeaf]
    rfl
  have unmarked : lydxGetOp ⟨[n], op⟩ = .none := by
    rw [← node]
    rfl
  rw [diffAddrPieces, first, first', getDiff_old second, getDiff_new second, replaced, unmarked]
  simp [Node.data, Node.value]

/-- Deleting an address, as an edit. -/
theorem AddressEntry.delete_edits (entry : AddressEntry family ip len children) (family' : Family) :
    (Piece.addressDelete (some ip) (some len) x).edits family' x =
      if family = family' then [.delete (nodeText (addressNode children))] else [] := by
  simp [Piece.edits, str, entry.family_eq, entry.text]

theorem AddressEntry.add_edits (entry : AddressEntry family ip len children) (family' : Family) :
    (Piece.addressAdd "add" (some ip) (some len) x).edits family' x =
      if family = family' then [.add (nodeText (addressNode children))] else [] := by
  simp [Piece.edits, str, entry.family_eq, entry.text]

theorem AddressEntry.create_edits (entry : AddressEntry family ip len children) (family' : Family) :
    (Piece.addressAdd (if isStdLoAddr x (some ip) (some len) then "replace" else "add") (some ip) (some len) x).edits
      family' x = if family = family' then [makeEdit family x (nodeText (addressNode children))] else [] := by
  by_cases std : isStdLoAddr x (some ip) (some len) = true
  · rw [if_pos std, makeEdit, if_pos ((entry.std_iff x).mp std)]
    simp [Piece.edits, str, entry.family_eq, entry.text]
  · rw [if_neg std, makeEdit, if_neg (mt (entry.std_iff x).mpr std)]
    exact entry.add_edits family'

end DiffEdits

/-- What is done about one address of a diff. -/
def diffEdits (family : Family) (x : String) (op : Option Operation) (n : Node) : List (Edit String) :=
  (diffAddrPieces x ⟨[n], op⟩).flatMap (Piece.edits family x)

section Lists
variable {family family' : Family} {a b : List Node} {op : Option Operation} {x : String}

theorem diffEdits_create (body : FamilyBody family b) (member : n ∈ addressNodes b)
    (below : lydChild ⟨[m], op⟩ = ⟨n.children, some .create⟩) :
    diffEdits family' x op m = if family = family' then [makeEdit family x (nodeText n)] else [] := by
  obtain ⟨children, ip, len, rfl, entry⟩ := body.address member
  rw [diffEdits, diffPieces_create entry below, List.flatMap_singleton, entry.create_edits]

/-- What becomes of an old address. -/
theorem diffEdits_old (body : FamilyBody family a) (body' : FamilyBody family b) (member : n ∈ addressNodes a) :
    let edits := fun family' => (match partner (addressNodes b) n with
      | none => [n.mark .delete]
      | some m => (diffNode n m).toList).flatMap (diffEdits family' x op)
    Turned ipOf ((addressNodes b).map nodeText) (nodeText n) (edits family) ∧
      ∀ family', family ≠ family' → edits family' = [] := by
  intro edits
  obtain ⟨children, ip, len, rfl, entry⟩ := body.address member
  simp only [edits]
  cases found : partner (addressNodes b) (addressNode children) with
  | none =>
    simp only [List.flatMap_singleton, diffEdits, diffPieces_delete entry, entry.delete_edits, if_true]
    refine ⟨.dropped fun t listed same => ?_, fun family' other => if_neg other⟩
    obtain ⟨m, inside, rfl⟩ := List.mem_map.mp listed
    obtain ⟨_, ip', _, rfl, entry'⟩ := body'.address inside
    rw [entry.ip_eq, entry'.ip_eq] at same
    refine List.find?_eq_none.mp found _ inside ?_
    simp [entry.key, entry'.key, same]
  | some m =>
    have inside : m ∈ addressNodes b := List.mem_of_find?_eq_some found
    obtain ⟨children', ip', len', rfl, entry'⟩ := body'.address inside
    have same : (addressNode children').key = (addressNode children).key := by simpa using List.find?_some found
    obtain rfl : ip' = ip := by simpa [entry.key, entry'.key] using same
    cases differs : diffNode (addressNode children) (addressNode children') with
    | none =>
      have unchanged := (diffSiblings_address entry entry').mp (diffNode_inner_eq_none.mp differs)
      simp only [differs, Option.toList_none, List.flatMap_nil, implies_true, and_true]
      exact .kept (List.mem_map.mpr ⟨_, inside, by rw [entry.text, entry'.text, unchanged]⟩)
    | some n =>
      simp only [differs, Option.toList_some, diffEdits, diffPieces_change entry entry' differs, List.flatMap_cons,
        List.flatMap_nil, entry.delete_edits, entry'.add_edits, if_true, List.append_nil, List.singleton_append]
      refine ⟨.changed (List.mem_map_of_mem inside) (by rw [entry.ip_eq, entry'.ip_eq]), fun family' other => ?_⟩
      rw [if_neg other, if_neg other, List.append_nil]

theorem diffEdits_flatMap (a : List Node) (body' : FamilyBody family b) :
    (addressNodes (diffSiblings a b)).flatMap (diffEdits family' x op) =
      ((addressNodes a).flatMap fun n => (match partner (addressNodes b) n with
        | none => [n.mark .delete]
        | some m => (diffNode n m).toList).flatMap (diffEdits family' x op)) ++
      ((addressNodes b).filter fun n => (partner (addressNodes a) n).isNone).flatMap fun n =>
        if family = family' then [makeEdit family x (nodeText n)] else [] := by
  rw [addressNodes, filter_diffSiblings, diffSiblings, diffChildren_eq_flatMap, List.flatMap_append, List.flatMap_assoc,
    List.flatMap_map]
  congr 1
  refine List.flatMap_congr fun n member => ?_
  have inside : n ∈ addressNodes b := (List.mem_filter.mp member).1
  exact diffEdits_create body' inside (by cases n <;> rfl)

/-- The edits for a list of addresses that has changed. -/
theorem patch_changed (body : FamilyBody family a) (body' : FamilyBody family b) (x : String)
    (op : Option Operation) : ∃ turns makes,
    Patch ipOf ((addressNodes a).map nodeText) ((addressNodes b).map nodeText) turns makes ∧
      (∀ m ∈ makes, m.2 = makeEdit family x m.1) ∧
      (addressNodes (diffSiblings a b)).flatMap (diffEdits family x op) = patchEdits turns makes := by
  refine ⟨(addressNodes a).map fun n => (nodeText n, (match partner (addressNodes b) n with
      | none => [n.mark .delete]
      | some m => (diffNode n m).toList).flatMap (diffEdits family x op)),
    ((addressNodes b).filter fun n => (partner (addressNodes a) n).isNone).map fun n =>
      (nodeText n, makeEdit family x (nodeText n)), ⟨?_, ?_, ?_, ?_⟩, ?_, ?_⟩
  · rw [List.map_map]
    rfl
  · rw [List.map_map, fresh, List.filter_map]
    congr 1
    refine List.filter_congr fun n member => ?_
    obtain ⟨children, ip, len, rfl, entry⟩ := body'.address member
    rw [Function.comp_apply, entry.ip_eq, Bool.eq_iff_iff, Option.isNone_iff_eq_none, decide_eq_true_eq, partner,
      List.find?_eq_none, List.map_map, List.mem_map, not_exists]
    refine forall_congr' fun m => ?_
    rw [not_and]
    refine imp_congr_right fun inside => ?_
    obtain ⟨children', ip', len', rfl, entry'⟩ := body.address inside
    simp [entry.key, entry'.key, entry'.ip_eq]
  · rintro t member
    obtain ⟨n, inside, rfl⟩ := List.mem_map.mp member
    exact (diffEdits_old body body' inside).1
  · rintro m member
    obtain ⟨n, _, rfl⟩ := List.mem_map.mp member
    simp only [makeEdit]
    split
    · exact .inr rfl
    · exact .inl rfl
  · rintro m member
    obtain ⟨n, _, rfl⟩ := List.mem_map.mp member
    rfl
  · rw [diffEdits_flatMap a body', patchEdits, List.flatMap_map, List.map_map]
    simp [List.map_eq_flatMap]

/-- The edits for a list of addresses that is new. -/
theorem patch_created (texts : List String) (make : String → Edit String)
    (makes : ∀ t, make t = .add t ∨ make t = .put t) :
    Patch ipOf [] texts [] (texts.map fun t => (t, make t)) ∧
      texts.map make = patchEdits [] (texts.map fun t => (t, make t)) := by
  refine ⟨⟨rfl, ?_, by simp, ?_⟩, ?_⟩
  · simp [fresh, Function.comp_def]
  · intro m member
    obtain ⟨t, _, rfl⟩ := List.mem_map.mp member
    exact makes t
  · simp [patchEdits, Function.comp_def]

end Lists

/-- The lines for a family of addresses bring them from one list to another. If
the standard address of the loopback is among the new ones alone, it is added as
if it were missing exactly if `again` holds. -/
def Brings (family : Family) (x : String) (pieces : List Piece) (old new : List String) (again : Prop) : Prop :=
  ∃ turns makes, Patch ipOf old new turns makes ∧
    pieces.flatMap (Piece.edits family x) = patchEdits turns makes ∧
    (x = "lo" → stdLo family ∉ old → (.add (stdLo family) ∈ patchEdits turns makes ↔ stdLo family ∈ new ∧ again))

section Families
variable {family family' : Family} {cif dif : Ptr} {o m a c : List Node} {op op' : Option Operation}

/-- The enabled leaf of a family that both configurations have. -/
theorem enabled_replaced (body : FamilyBody family a) (body' : FamilyBody family c)
    (below : lydChild p = ⟨diffSiblings a c, op⟩) :
    lydxGetOp (lydxGetChild p "enabled") = .replace ↔ valueOf a "enabled" ≠ valueOf c "enabled" := by
  obtain ⟨va, fa, found, _⟩ := body.required_leaf "enabled" rfl (by simp)
  obtain ⟨vc, fc, found', _⟩ := body'.required_leaf "enabled" rfl (by simp)
  rw [lydxGetOp, getChild_operation below, childOf_diffSiblings (body.alone rfl rfl) (body'.alone rfl rfl), found, found',
    diffOf, diffNode, valueOf_eq, valueOf_eq, found, found']
  simp only [Option.bind_some, Node.value, ne_eq, Option.some.injEq]
  by_cases same : va = vc
  · by_cases flag : fa = fc
    · simp [same, flag, Node.isDefault]
    · simp [same, flag, Node.isDefault, Node.data]
  · simp [same, Node.data]

/-- The entries of an address list, each with the operation of the list. -/
theorem diffAddr_flatMap (below : lydChild p = ⟨nodes, op⟩) :
    ((lyxListForEach (lydChild p) "address").flatMap (diffAddrPieces x)).flatMap (Piece.edits family x) =
      (addressNodes nodes).flatMap (diffEdits family x op) := by
  rw [List.flatMap_assoc, flatMap_forEach _ _ _ (diffEdits family x op), below]
  · rfl
  · rw [below]
    intro n rest _ _
    rfl

/-- A family that is created with its addresses. -/
theorem addressPieces_created (is : lydChild cif = ⟨m, op'⟩) (body : IfaceBody m) (on : familyOn family m = true)
    (found : childOf m family.proto = some (.inner family.proto [] .plain c))
    (below : lydChild (lydxGetChild dif family.proto) = ⟨c, some .create⟩) (family' : Family) :
    Brings family (ifaceName dif) (addressPieces family cif dif) [] (addressList family m) False ∧
      (family ≠ family' → (addressPieces family cif dif).flatMap (Piece.edits family' (ifaceName dif)) = []) := by
  obtain ⟨_, same, body'⟩ := body.family found
  cases same
  have enabled : lydxGetOp (lydxGetChild (lydxGetChild dif family.proto) "enabled") ≠ .replace := by
    obtain ⟨value, flag, found', _⟩ := body'.required_leaf "enabled" rfl (by simp)
    rw [lydxGetOp, getChild_operation below, found']
    simp [Node.data, Meta.plain]
  have edits (family' : Family) : (addressPieces family cif dif).flatMap (Piece.edits family' (ifaceName dif)) =
      (addressNodes c).flatMap fun n =>
        if family = family' then [makeEdit family (ifaceName dif) (nodeText n)] else [] := by
    rw [addressPieces, familyEnabled_of is, on, if_neg (by simp), if_neg enabled, diffAddr_flatMap below]
    refine List.flatMap_congr fun n member => diffEdits_create body' member ?_
    obtain ⟨_, _, _, rfl, _⟩ := body'.address member
    rfl
  have list : addressList family m = (addressNodes c).map nodeText := by rw [addressList, found]; rfl
  constructor
  · obtain ⟨patch, same⟩ := patch_created (addressList family m) (makeEdit family (ifaceName dif)) fun t => by
      unfold makeEdit
      split
      · exact .inr rfl
      · exact .inl rfl
    refine ⟨_, _, patch, ?_, fun lo _ => ?_⟩
    · rw [edits, ← same, list, List.map_map, List.map_eq_flatMap]
      simp
    · rw [patchEdits, and_false, iff_false]
      simp only [List.flatMap_nil, List.nil_append, List.map_map, List.mem_map, not_exists, not_and, Function.comp_apply]
      intro t _ add
      unfold makeEdit at add
      split at add
      · simp at add
      · rename_i other
        obtain rfl : t = stdLo family := by simpa using add
        exact other ⟨lo, rfl⟩
  · intro other
    rw [edits, List.flatMap_eq_nil_iff]
    intro n _
    rw [if_neg other]

/-- The entry of a diff for a child of an interface that is not its key. -/
theorem childOf_changed (other : name ≠ "name") (o m : List Node) :
    childOf (keyLeaves ["name"] o ++ diffSiblings o m) name = childOf (diffSiblings o m) name := by
  rw [childOf_append, childOf_keyLeaves, if_neg (by simpa using other), Option.none_or]

theorem Family.proto_ne_name (family : Family) : family.proto ≠ "name" := by cases family <;> decide

theorem IfaceBody.alone_family (body : IfaceBody m) (family : Family) : Alone family.proto m := by
  cases family with
  | ipv4 => exact body.alone rfl rfl
  | ipv6 => exact body.alone rfl rfl

/-- The diff of a family that both configurations have. -/
theorem familyDiff_below (body : IfaceBody o) (body' : IfaceBody m)
    (below : lydChild dif = ⟨keyLeaves ["name"] o ++ diffSiblings o m, some .none⟩)
    (was : childOf o family.proto = some (.inner family.proto [] .plain a))
    (is : childOf m family.proto = some (.inner family.proto [] .plain c)) :
    ∃ op, lydChild (lydxGetChild dif family.proto) = ⟨diffSiblings a c, op⟩ := by
  rw [getChild_below below, childOf_changed family.proto_ne_name,
    childOf_diffSiblings (body.alone_family family) (body'.alone_family family), was, is, diffOf]
  cases differs : diffNode (.inner family.proto [] .plain a) (.inner family.proto [] .plain c) with
  | none =>
    have same : diffSiblings a c = [] := diffNode_inner_eq_none.mp differs
    exact ⟨none, by rw [same]; rfl⟩
  | some n =>
    obtain ⟨_, rfl⟩ := diffNode_inner_eq_some.mp differs
    exact ⟨some .none, by simp [Node.children, Node.data, keyLeaves_nil]⟩

/-- Whether the standard address of the loopback was configured before in another
way: in a family that was disabled, or with another prefix length. -/
def Again (family : Family) (o : List Node) : Prop :=
  (childOf o family.proto).isSome ∧
    (familyOn family o = true → ipOf (stdLo family) ∈ (addressList family o).map ipOf)

/-- The addresses of an interface that was there before. -/
def listOn (family : Family) (children : List Node) : List String :=
  if familyOn family children then addressList family children else []

theorem addressPieces_changed (is : lydChild cif = ⟨m, op'⟩) (body : IfaceBody o) (body' : IfaceBody m)
    (below : lydChild dif = ⟨keyLeaves ["name"] o ++ diffSiblings o m, some .none⟩) (on : familyOn family m = true)
    (family' : Family) :
    Brings family (ifaceName dif) (addressPieces family cif dif) (listOn family o) (addressList family m)
        (Again family o) ∧
      (family ≠ family' → (addressPieces family cif dif).flatMap (Piece.edits family' (ifaceName dif)) = []) := by
  have enabled : familyEnabled family cif = true := (familyEnabled_of is).trans on
  cases found : childOf m family.proto with
  | none => simp [familyOn, found] at on
  | some n =>
    obtain ⟨c, rfl, fine'⟩ := body'.family found
    have list : addressList family m = (addressNodes c).map nodeText := by rw [addressList, found]; rfl
    have true' : valueOf c "enabled" = some "true" := by
      rw [familyOn, found] at on
      exact of_decide_eq_true on
    cases was : childOf o family.proto with
    | none =>
      have created : lydChild (lydxGetChild dif family.proto) = ⟨c, some .create⟩ := by
        rw [getChild_below below, childOf_changed family.proto_ne_name,
          childOf_diffSiblings (body.alone_family family) (body'.alone_family family), was, found]
        rfl
      have again : Again family o ↔ False := by simp [Again, was]
      have none : listOn family o = [] := by simp [listOn, familyOn, was]
      rw [none, propext again]
      exact addressPieces_created is body' on found created family'
    | some k =>
      obtain ⟨a, rfl, fine⟩ := body.family was
      obtain ⟨op, diff⟩ := familyDiff_below body body' below was found
      have old : addressList family o = (addressNodes a).map nodeText := by rw [addressList, was]; rfl
      have before : familyOn family o = decide (valueOf a "enabled" = some "true") := by rw [familyOn, was]; rfl
      by_cases same : valueOf a "enabled" = valueOf c "enabled"
      · -- The family stays enabled, and its addresses are compared.
        have kept : ¬lydxGetOp (lydxGetChild (lydxGetChild dif family.proto) "enabled") = .replace := by
          rw [enabled_replaced fine fine' diff]
          exact not_not.mpr same
        have on' : familyOn family o = true := by rw [before, same, true']; rfl
        have edits (family' : Family) : (addressPieces family cif dif).flatMap (Piece.edits family' (ifaceName dif)) =
            (addressNodes (diffSiblings a c)).flatMap (diffEdits family' (ifaceName dif) op) := by
          rw [addressPieces, enabled, if_neg (by simp), if_neg kept, diffAddr_flatMap diff]
        constructor
        · obtain ⟨turns, makes, patch, made, same⟩ := patch_changed fine fine' (ifaceName dif) op
          rw [listOn, if_pos on', old, list]
          refine ⟨turns, makes, patch, (edits family).trans same, fun lo absent => ?_⟩
          rw [patch.add_mem_iff fine'.unique absent]
          · simp [Again, was, on', old]
          · intro m member add
            rw [made m member, makeEdit] at add
            split at add
            · simp at add
            · rename_i other
              exact other ⟨lo, by simpa using add⟩
        · intro other
          rw [edits, diffEdits_flatMap a fine', List.append_eq_nil_iff, List.flatMap_eq_nil_iff,
            List.flatMap_eq_nil_iff]
          exact ⟨fun n member => (diffEdits_old fine fine' member).2 family' other, fun n _ => if_neg other⟩
      · -- It was disabled, and all addresses are added.
        have replaced := (enabled_replaced fine fine' diff).mpr same
        have off : familyOn family o = false := by
          rw [before, decide_eq_false_iff_not, ← true']
          exact same
        have edits (family' : Family) : (addressPieces family cif dif).flatMap (Piece.edits family' (ifaceName dif)) =
            (addressNodes c).flatMap fun n => if family = family' then [Edit.add (nodeText n)] else [] := by
          rw [addressPieces, enabled, if_neg (by simp), if_pos replaced, List.flatMap_map,
            flatMap_forEach _ _ _ (fun n => if family = family' then [Edit.add (nodeText n)] else []),
            getChild_below is, found]
          · rfl
          · rw [getChild_below is, found]
            intro n rest member named
            obtain ⟨children, ip, len, rfl, entry⟩ := fine'.address (List.mem_filter.mpr ⟨member, by simpa using named⟩)
            rw [lydxGetCattr_eq, lydxGetCattr_eq]
            simp only [addressNode, Node.children, valueOf_eq, entry.ipLeaf, entry.lenLeaf, Option.bind_some, Node.value]
            exact entry.add_edits family'
        constructor
        · obtain ⟨patch, texts⟩ := patch_created (addressList family m) Edit.add fun t => .inl rfl
          rw [listOn, off, if_neg (by simp)]
          refine ⟨_, _, patch, ?_, fun _ _ => ?_⟩
          · rw [edits, ← texts, list, List.map_map, List.map_eq_flatMap]
            simp
          · simp [← texts, Again, was, off]
        · intro other
          rw [edits, List.flatMap_eq_nil_iff]
          exact fun n _ => if_neg other

end Families

end Netdag
