import InfixOS.Core.Reading
import InfixOS.Netdag.Generate
import InfixOS.Netdag.Share
import InfixOS.Yang.Schema

/-! The interfaces of two configurations and of their difference. Configurations are
trees of the YANG modules with all defaults in place, as sr_get_data gives them. -/
namespace Netdag
open Lyx Yang

def isBoolean (value : String) : Bool := value = "true" || value = "false"

def isText (_ : String) : Bool := true

/-- What tells the addresses of the two families from each other. -/
def isAddress : Family → String → Bool
  | .ipv4, ip => !ip.toList.contains ':' && !ip.toList.contains '/'
  | .ipv6, ip => ip.toList.contains ':' && !ip.toList.contains '/'

/-- The leaf of a family's `autoconf` container, with its default. -/
def Family.autoconf : Family → String × String
  | .ipv4 => ("enabled", "false")
  | .ipv6 => ("create-global-addresses", "true")

def addressSub (family : Family) : List (String × Schema) :=
  [("ip", .leaf (isAddress family) none), ("prefix-length", .leaf isText none)]

def autoconfSub (family : Family) : List (String × Schema) :=
  [(family.autoconf.1, .leaf isBoolean (some family.autoconf.2))]

def familySub (family : Family) : List (String × Schema) :=
  [("enabled", .leaf isBoolean (some "true")), ("forwarding", .leaf isBoolean (some "false")),
    ("address", .inner ["ip"] ["ip", "prefix-length"] true false (addressSub family)),
    ("autoconf", .inner [] [family.autoconf.1] false false (autoconfSub family)),
    ("create-global-addresses", .never)]

def tagSub : List (String × Schema) := [("tag-type", .leaf isText none), ("vlan-id", .leaf isText none)]

def dot1qSub : List (String × Schema) := [("outer-tag", .inner [] ["tag-type", "vlan-id"] true false tagSub)]

def encapsulationSub : List (String × Schema) := [("dot1q-vlan", .inner [] [] false false dot1qSub)]

def ifaceSub : List (String × Schema) :=
  [("name", .leaf isText none), ("type", .leaf isText none), ("enabled", .leaf isBoolean (some "true")),
    ("ipv4", .inner [] ["enabled", "autoconf"] false true (familySub .ipv4)),
    ("ipv6", .inner [] ["enabled", "autoconf"] false true (familySub .ipv6)),
    ("encapsulation", .inner [] [] false false encapsulationSub),
    ("parent-interface", .leaf isText none),
    ("bridge-port", .inner [] ["bridge"] false false [("bridge", .leaf isText none)]),
    ("veth", .inner [] ["peer"] false false [("peer", .leaf isText none)]), ("peer", .never)]

/-- The children of an interface. -/
abbrev IfaceBody (children : List Node) : Prop := Body ["name", "type"] false false ifaceSub children

def topSub : List (String × Schema) :=
  [("interfaces", .inner [] [] false false
    [("interface", .inner ["name"] ["name", "type"] false false ifaceSub)])]

/-- A configuration that follows the YANG modules. -/
abbrev Tidy (cfg : List Node) : Prop := Body [] false false topSub cfg

/-- What the container of all interfaces holds. -/
def entries (tree : List Node) : List Node := ((childOf tree "interfaces").map Node.children).getD []

/-- The operation on that container. -/
def entriesOp (tree : List Node) : Option Operation := (childOf tree "interfaces").bind fun n => n.data.operation

theorem entriesFrom_dropWhile (name : String) (nodes : List Node) :
    entriesFrom name (nodes.dropWhile fun n => n.name ≠ name) = entriesFrom name nodes := by
  induction nodes with
  | nil => rfl
  | cons n rest ih =>
    by_cases named : n.name = name
    · simp [named]
    · rw [List.dropWhile_cons_of_pos (by simpa using named), ih, entriesFrom, if_neg named]

theorem ifaces_eq (tree : List Node) :
    ifaces tree = (entriesFrom "interface" (entries tree)).map fun nodes => ⟨nodes, entriesOp tree⟩ := by
  have top : lydChild (lydxGetSibling (.root tree) "interfaces") = ⟨entries tree, entriesOp tree⟩ := by
    rw [lydChild_eq, operation_eq, getSibling_node]
    simp [entries, entriesOp, Ptr.root, lydxGetSibling]
  have list : interfacesOf tree = lydxGetSibling ⟨entries tree, entriesOp tree⟩ "interface" := by rw [← top]; rfl
  rw [ifaces, list, lyxListForEach, lydxGetSibling, entriesFrom_dropWhile]

theorem mem_ifaces (member : p ∈ ifaces tree) :
    ∃ n rest, p = ⟨n :: rest, entriesOp tree⟩ ∧ n ∈ entries tree ∧ n.name = "interface" := by
  rw [ifaces_eq] at member
  obtain ⟨nodes, listed, rfl⟩ := List.mem_map.mp member
  obtain ⟨n, rest, rfl⟩ := List.exists_cons_of_ne_nil (entriesFrom_ne_nil listed)
  exact ⟨n, rest, rfl, mem_entriesFrom listed⟩

theorem ifaces_of_mem {n : Node} (member : n ∈ entries tree) (named : n.name = "interface") :
    ∃ rest, ⟨n :: rest, entriesOp tree⟩ ∈ ifaces tree := by
  obtain ⟨rest, found⟩ := entriesFrom_of_mem member named
  exact ⟨rest, by rw [ifaces_eq]; exact List.mem_map.mpr ⟨_, found, rfl⟩⟩

/-- An interface with these children. -/
def entry (children : List Node) : Node := .inner "interface" ["name"] .plain children

@[simp] theorem entry_children (children : List Node) : (entry children).children = children := rfl

@[simp] theorem entry_operation (children : List Node) : (entry children).data.operation = none := rfl

/-- The name of an interface, which is its key. -/
def nameOf (children : List Node) : String := str (valueOf children "name")

section Tidy
variable {cfg : List Node} {cif dif : Ptr}

theorem Tidy.op (tidy : Tidy cfg) : entriesOp cfg = none := by
  unfold entriesOp
  cases found : childOf cfg "interfaces" with
  | none => rfl
  | some top =>
    obtain ⟨below, rfl, _⟩ := tidy.child_inner rfl found
    rfl

theorem Tidy.entries_body (tidy : Tidy cfg) :
    ((entries cfg).map Node.key).Nodup ∧ ∀ n ∈ entries cfg, n.name = "interface" →
      ∃ children, n = entry children ∧ IfaceBody children := by
  unfold entries
  cases found : childOf cfg "interfaces" with
  | none => simp
  | some top =>
    obtain ⟨below, rfl, body⟩ := tidy.child_inner rfl found
    refine ⟨body.distinct, fun n member named => ?_⟩
    have entry : List.lookup n.name [("interface", Schema.inner ["name"] ["name", "type"] false false ifaceSub)] =
        some (.inner ["name"] ["name", "type"] false false ifaceSub) := by rw [named]; rfl
    obtain ⟨name, children, rfl, fine⟩ := conforms_inner.mp (body.each member entry)
    obtain rfl : name = "interface" := named
    exact ⟨children, rfl, fine⟩

theorem Tidy.body (tidy : Tidy cfg) (member : entry children ∈ entries cfg) : IfaceBody children := by
  obtain ⟨other, same, body⟩ := tidy.entries_body.2 _ member rfl
  exact (Node.inner.inj same).2.2.2 ▸ body

/-- An interface of a configuration. -/
theorem Tidy.iface (tidy : Tidy cfg) (member : cif ∈ ifaces cfg) :
    ∃ children rest, cif = ⟨entry children :: rest, none⟩ ∧ entry children ∈ entries cfg ∧ IfaceBody children := by
  obtain ⟨n, rest, rfl, listed, named⟩ := mem_ifaces member
  obtain ⟨children, rfl, body⟩ := tidy.entries_body.2 n listed named
  exact ⟨children, rest, by rw [tidy.op], listed, body⟩

theorem lydChild_entry (children rest : List Node) (op : Option Operation) :
    lydChild ⟨entry children :: rest, op⟩ = ⟨children, op⟩ := by
  simp [lydChild, Ptr.operation, entry, Node.data, Meta.plain, Node.children]

theorem ifaceName_cons (n : Node) (rest : List Node) (op : Option Operation) :
    ifaceName ⟨n :: rest, op⟩ = nameOf n.children :=
  congrArg str (lydxGetCattr_eq n rest op "name")

theorem ifaceName_of (below : lydChild p = ⟨children, op⟩) : ifaceName p = nameOf children := by
  rw [ifaceName, getCattr_eq, below, nameOf]

theorem entry_key (body : IfaceBody children) : (entry children).key = ("interface", [some (nameOf children)]) := by
  obtain ⟨value, flag, found, _⟩ := body.required_leaf "name" rfl (by simp)
  simp [entry, Node.key, nameOf, valueOf_eq, found, Node.value, str]

theorem Tidy.same_entry (tidy : Tidy cfg) (one : entry a ∈ entries cfg) (two : entry b ∈ entries cfg)
    (same : nameOf a = nameOf b) : a = b := by
  have key : (entry a).key = (entry b).key := by
    rw [entry_key (tidy.body one), entry_key (tidy.body two), same]
  exact (Node.inner.inj (List.inj_on_of_nodup_map tidy.entries_body.1 one two key)).2.2.2

/-- The configuration of an interface of this name. -/
theorem Tidy.findCif_entry (tidy : Tidy cfg) (member : entry children ∈ entries cfg)
    (named : ifaceName dif = nameOf children) :
    findCif (interfacesOf cfg) dif ∈ ifaces cfg ∧ lydChild (findCif (interfacesOf cfg) dif) = ⟨children, none⟩ := by
  obtain ⟨rest, listed⟩ := ifaces_of_mem member rfl
  unfold findCif
  cases found : (lyxListForEach (interfacesOf cfg) "interface").find? fun cif => ifaceName cif = ifaceName dif with
  | none =>
    refine absurd ?_ (List.find?_eq_none.mp found _ listed)
    simpa [named] using ifaceName_of (lydChild_entry children rest _)
  | some cif =>
    have inside : cif ∈ ifaces cfg := List.mem_of_find?_eq_some found
    have same : ifaceName cif = ifaceName dif := by simpa using List.find?_some found
    obtain ⟨other, rest', rfl, listed', _⟩ := tidy.iface inside
    rw [ifaceName_of (lydChild_entry other rest' none), named] at same
    exact ⟨inside, tidy.same_entry listed' member same ▸ lydChild_entry other rest' none⟩

theorem Tidy.findCif_null (tidy : Tidy cfg)
    (absent : ∀ children, entry children ∈ entries cfg → nameOf children ≠ ifaceName dif) :
    findCif (interfacesOf cfg) dif = .null := by
  unfold findCif
  cases found : (lyxListForEach (interfacesOf cfg) "interface").find? fun cif => ifaceName cif = ifaceName dif with
  | none => rfl
  | some cif =>
    obtain ⟨children, rest, rfl, listed, _⟩ := tidy.iface (List.mem_of_find?_eq_some found)
    refine absurd ?_ (absent children listed)
    have same := List.find?_some found
    rwa [decide_eq_true_eq, ifaceName_of (lydChild_entry children rest none)] at same

theorem Tidy.partner_entry (tidy : Tidy cfg) (body : IfaceBody o) :
    (partner (entries cfg) (entry o) = none ∧ ∀ m, entry m ∈ entries cfg → nameOf m ≠ nameOf o) ∨
      ∃ m, partner (entries cfg) (entry o) = some (entry m) ∧ entry m ∈ entries cfg ∧ nameOf m = nameOf o := by
  unfold partner
  cases found : (entries cfg).find? fun m => m.key = (entry o).key with
  | none =>
    refine .inl ⟨rfl, fun m member same => List.find?_eq_none.mp found _ member ?_⟩
    simp [entry_key (tidy.body member), entry_key body, same]
  | some n =>
    have member := List.mem_of_find?_eq_some found
    have key : n.key = (entry o).key := by simpa using List.find?_some found
    obtain ⟨m, rfl, body'⟩ := tidy.entries_body.2 n member (by rw [← n.key_fst, key]; rfl)
    rw [entry_key body', entry_key body] at key
    exact .inr ⟨m, rfl, member, by simpa using key⟩

end Tidy

theorem nameOf_changed (body : IfaceBody o) (m : List Node) :
    nameOf (keyLeaves ["name"] o ++ diffSiblings o m) = nameOf o := by
  obtain ⟨value, flag, found, _⟩ := body.required_leaf "name" rfl (by simp)
  simp [nameOf, valueOf_eq, childOf_append, childOf_keyLeaves, found]

theorem diffNode_entry (o m : List Node) (n : Node) : diffNode (entry o) (entry m) = some n ↔
    diffSiblings o m ≠ [] ∧
      n = .inner "interface" ["name"] ⟨some .none, none, none⟩ (keyLeaves ["name"] o ++ diffSiblings o m) :=
  diffNode_inner_eq_some

/-- A CHANGE from one configuration to another, with libyang's difference of the two. -/
structure Turns (cfg : List Node) (change : Change) : Prop where
  old : Tidy cfg
  new : Tidy change.cfg
  diff : change.diff = diffSiblings cfg change.cfg

/-- How an interface of a difference comes about: it is created or deleted with all
of its children, or it is there with those that have changed. -/
inductive Delta (old new dif : Ptr) : Prop
  | created (was : old = .null) (is : lydChild new = ⟨m, none⟩) (body : IfaceBody m)
      (below : lydChild dif = ⟨m, some .create⟩)
  | changed (was : lydChild old = ⟨o, none⟩) (is : lydChild new = ⟨m, none⟩) (body : IfaceBody o)
      (body' : IfaceBody m) (below : lydChild dif = ⟨keyLeaves ["name"] o ++ diffSiblings o m, some .none⟩)
  | deleted (was : lydChild old = ⟨o, none⟩) (is : new = .null) (body : IfaceBody o)
      (below : lydChild dif = ⟨o, some .delete⟩)

/-- The three ways, for the entries themselves. -/
inductive Entered (cfg cfg' : List Node) (n : Node) (op : Option Operation) : Prop
  | created (is : entry m ∈ entries cfg') (was : ∀ o, entry o ∈ entries cfg → nameOf o ≠ nameOf m)
      (below : n.children = m) (op : op = some .create)
  | changed (was : entry o ∈ entries cfg) (is : entry m ∈ entries cfg') (same : nameOf o = nameOf m)
      (differ : diffSiblings o m ≠ []) (below : n.children = keyLeaves ["name"] o ++ diffSiblings o m)
      (op : op = some .none)
  | deleted (was : entry o ∈ entries cfg) (is : ∀ m, entry m ∈ entries cfg' → nameOf m ≠ nameOf o)
      (below : n.children = o) (op : op = some .delete)

section Turns
variable {cfg : List Node} {change : Change} {dif : Ptr} {n : Node}

theorem entered_both (tidy : Tidy cfg) (tidy' : Tidy cfg') (named : n.name = "interface")
    (member : n ∈ diffSiblings (entries cfg) (entries cfg')) : Entered cfg cfg' n n.data.operation := by
  rcases (mem_diffSiblings _ _).mp member with ⟨old, listed, ⟨gone, rfl⟩ | ⟨new, found, differs⟩⟩ | ⟨new, listed, fresh, rfl⟩
  · obtain ⟨o, rfl, body⟩ := tidy.entries_body.2 old listed (by simpa using named)
    rcases tidy'.partner_entry body with ⟨_, absent⟩ | ⟨m, found, _⟩
    · exact .deleted listed absent rfl rfl
    · simp [found] at gone
  · obtain ⟨o, rfl, body⟩ := tidy.entries_body.2 old listed (diffNode_name differs ▸ named)
    rcases tidy'.partner_entry body with ⟨none, _⟩ | ⟨m, found', listed', same⟩
    · simp [none] at found
    · obtain rfl : entry m = new := by simpa [found'] using found
      obtain ⟨differ, rfl⟩ := (diffNode_entry o m n).mp differs
      exact .changed listed listed' same.symm differ rfl rfl
  · obtain ⟨m, rfl, body⟩ := tidy'.entries_body.2 new listed (by simpa using named)
    rcases tidy.partner_entry body with ⟨_, absent⟩ | ⟨o, found, _⟩
    · exact .created listed absent rfl rfl
    · simp [found] at fresh

/-- The container of all interfaces may itself be created or deleted. -/
theorem Turns.entered (turns : Turns cfg change) (named : n.name = "interface") (member : n ∈ entries change.diff) :
    Entered cfg change.cfg n (n.data.operation.or (entriesOp change.diff)) := by
  have top : childOf change.diff "interfaces" = diffOf (childOf cfg "interfaces") (childOf change.cfg "interfaces") := by
    rw [turns.diff, childOf_diffSiblings (turns.old.alone rfl rfl) (turns.new.alone rfl rfl)]
  have both := fun member => entered_both turns.old turns.new named (n := n) member
  have bodies := turns.old.entries_body
  have bodies' := turns.new.entries_body
  unfold entries at both bodies bodies' member
  unfold entriesOp
  rw [top] at member ⊢
  cases was : childOf cfg "interfaces" with
  | none =>
    cases is : childOf change.cfg "interfaces" with
    | none => simp [was, is, diffOf] at member
    | some new =>
      simp only [was, is, diffOf, Option.map_some, Option.getD_some, Node.children_mark] at member bodies'
      obtain ⟨m, rfl, _⟩ := bodies'.2 n member named
      refine .created (m := m) ?_ (by simp [entries, was]) rfl (by simp [diffOf])
      simpa [entries, is] using member
  | some old =>
    obtain ⟨below, rfl, _⟩ := turns.old.child_inner rfl was
    cases is : childOf change.cfg "interfaces" with
    | none =>
      simp only [was, is, diffOf, Option.map_some, Option.getD_some, Node.children_mark] at member bodies
      obtain ⟨o, rfl, _⟩ := bodies.2 n member named
      refine .deleted (o := o) ?_ (by simp [entries, is]) rfl (by simp [diffOf])
      simpa [entries, was] using member
    | some new =>
      simp only [was, is, diffOf, diffNode_inner, Option.map_some, Option.getD_some] at member both ⊢
      cases changes : diffSiblings below new.children with
      | nil => simp [changes] at member
      | cons c rest =>
        simp only [changes] at member
        have listed : n ∈ keyLeaves [] below ++ c :: rest := member
        rw [keyLeaves_nil, List.nil_append, ← changes] at listed
        have inside := both listed
        have op : n.data.operation.or (some Operation.none) = n.data.operation := by
          cases inside with
          | created _ _ _ op => rw [op]; rfl
          | changed _ _ _ _ _ op => rw [op]; rfl
          | deleted _ _ _ op => rw [op]; rfl
        exact (congrArg (Entered cfg change.cfg n) op).mpr inside

theorem Turns.delta (turns : Turns cfg change) (member : dif ∈ ifaces change.diff) :
    Delta (findCif (interfacesOf cfg) dif) (findCif (interfacesOf change.cfg) dif) dif := by
  obtain ⟨n, rest, rfl, listed, named⟩ := mem_ifaces member
  have below : lydChild ⟨n :: rest, entriesOp change.diff⟩ =
      ⟨n.children, n.data.operation.or (entriesOp change.diff)⟩ := rfl
  cases turns.entered named listed with
  | created is was children op =>
    rw [children, op] at below
    have name := ifaceName_of below
    refine .created (turns.old.findCif_null fun o there => ?_) (turns.new.findCif_entry is name).2 (turns.new.body is) below
    rw [name]
    exact was o there
  | changed was is same differ children op =>
    rw [children, op] at below
    have name := (ifaceName_of below).trans (nameOf_changed (turns.old.body was) _)
    exact .changed (turns.old.findCif_entry was name).2 (turns.new.findCif_entry is (name.trans same)).2
      (turns.old.body was) (turns.new.body is) below
  | deleted was is children op =>
    rw [children, op] at below
    have name := ifaceName_of below
    refine .deleted (turns.old.findCif_entry was name).2 (turns.new.findCif_null fun m there => ?_) (turns.old.body was) below
    rw [name]
    exact is m there

/-- What the container of all interfaces holds in the difference. -/
theorem Turns.entries_eq (turns : Turns cfg change) : entries change.diff = diffSiblings (entries cfg) (entries change.cfg) ∨
    entries cfg = [] ∧ entries change.diff = entries change.cfg ∨
    entries change.cfg = [] ∧ entries change.diff = entries cfg := by
  have top : childOf change.diff "interfaces" = diffOf (childOf cfg "interfaces") (childOf change.cfg "interfaces") := by
    rw [turns.diff, childOf_diffSiblings (turns.old.alone rfl rfl) (turns.new.alone rfl rfl)]
  unfold entries
  rw [top]
  cases was : childOf cfg "interfaces" with
  | none =>
    cases is : childOf change.cfg "interfaces" with
    | none => exact .inr (.inl ⟨rfl, rfl⟩)
    | some new => exact .inr (.inl ⟨rfl, by simp [diffOf]⟩)
  | some old =>
    cases is : childOf change.cfg "interfaces" with
    | none => exact .inr (.inr ⟨rfl, by simp [diffOf]⟩)
    | some new =>
      obtain ⟨below, rfl, _⟩ := turns.old.child_inner rfl was
      refine .inl ?_
      rw [diffOf, diffNode_inner, Option.map_some, Option.map_some, Option.getD_some, Option.getD_some]
      cases changes : diffSiblings below new.children with
      | nil => exact changes.symm
      | cons c rest =>
        show keyLeaves [] below ++ c :: rest = diffSiblings below new.children
        rw [keyLeaves_nil, changes, List.nil_append]

/-- The names of the interfaces of a tree. -/
theorem map_ifaceName (tree : List Node) : (ifaces tree).map ifaceName =
    ((entries tree).filter fun n => n.name = "interface").map fun n => nameOf n.children := by
  rw [ifaces_eq, List.map_map]
  induction entries tree with
  | nil => rfl
  | cons n rest ih =>
    rw [entriesFrom]
    by_cases named : n.name = "interface"
    · rw [if_pos named, List.filter_cons_of_pos (by simpa using named), List.map_cons, List.map_cons, ih,
        Function.comp_apply, ifaceName_cons]
    · rw [if_neg named, List.filter_cons_of_neg (by simpa using named), ih]

theorem Tidy.unique (tidy : Tidy cfg) : ((ifaces cfg).map ifaceName).Nodup := by
  rw [map_ifaceName]
  refine (tidy.entries_body.1.of_map.filter _).map_on fun a member b member' same => ?_
  simp only [List.mem_filter, decide_eq_true_eq] at member member'
  obtain ⟨_, rfl, _⟩ := tidy.entries_body.2 a member.1 member.2
  obtain ⟨_, rfl, _⟩ := tidy.entries_body.2 b member'.1 member'.2
  rw [tidy.same_entry member.1 member'.1 same]

theorem names_diffChildren (olds : ∀ n ∈ old, ∃ o, n = entry o ∧ IfaceBody o) (news : ∀ n ∈ new, ∃ m, n = entry m) :
    ((diffChildren old new).map fun n => nameOf n.children).Sublist (old.map fun n => nameOf n.children) := by
  induction old with
  | nil => exact .slnil
  | cons n rest ih =>
    obtain ⟨⟨o, rfl, body⟩, others⟩ := List.forall_mem_cons.mp olds
    have later := ih others
    rw [diffChildren, List.map_append, List.map_cons]
    cases found : partner new (entry o) with
    | none => exact later.cons_cons _
    | some m =>
      obtain ⟨m, rfl⟩ := news m (List.mem_of_find?_eq_some found)
      cases differs : diffNode (entry o) (entry m) with
      | none => simpa [differs] using later.cons _
      | some n =>
        obtain ⟨_, rfl⟩ := (diffNode_entry o m n).mp differs
        simp only [differs, Option.toList_some, List.map_cons, List.map_nil, List.singleton_append]
        have name : nameOf (keyLeaves ["name"] o ++ diffSiblings o m) = nameOf (entry o).children := nameOf_changed body m
        exact name ▸ later.cons_cons _

/-- No interface is in the difference twice. -/
theorem Turns.unique (turns : Turns cfg change) : ((ifaces change.diff).map ifaceName).Nodup := by
  have olds := map_ifaceName cfg ▸ turns.old.unique
  have news := map_ifaceName change.cfg ▸ turns.new.unique
  rw [map_ifaceName]
  rcases turns.entries_eq with both | ⟨_, same⟩ | ⟨_, same⟩
  · have bodies : ∀ n ∈ (entries cfg).filter fun n => n.name = "interface", ∃ o, n = entry o ∧ IfaceBody o := by
      intro n member
      exact turns.old.entries_body.2 n (List.mem_filter.mp member).1 (of_decide_eq_true (List.mem_filter.mp member).2)
    have bodies' : ∀ n ∈ (entries change.cfg).filter fun n => n.name = "interface", ∃ m, n = entry m := by
      intro n member
      obtain ⟨m, same, _⟩ := turns.new.entries_body.2 n (List.mem_filter.mp member).1
        (of_decide_eq_true (List.mem_filter.mp member).2)
      exact ⟨m, same⟩
    have names := names_diffChildren bodies bodies'
    rw [both, filter_diffSiblings, diffSiblings, List.map_append, List.nodup_append]
    refine ⟨olds.sublist names, ?_, ?_⟩
    · rw [List.map_map]
      simpa [Function.comp_def] using news.sublist ((List.filter_sublist).map fun n : Node => nameOf n.children)
    · rintro name early _ late rfl
      obtain ⟨n, member, rfl⟩ := List.mem_map.mp (names.subset early)
      obtain ⟨o, rfl, body⟩ := bodies n member
      simp only [List.map_map, List.mem_map, List.mem_filter, Option.isNone_iff_eq_none] at late
      obtain ⟨k, ⟨listed, fresh⟩, same⟩ := late
      obtain ⟨m, rfl, body'⟩ := turns.new.entries_body.2 k listed.1 (of_decide_eq_true listed.2)
      refine List.find?_eq_none.mp fresh _ member ?_
      have same' : nameOf m = nameOf o := by simpa using same
      simp [entry_key body, entry_key body', same']
  · rw [same]
    exact news
  · rw [same]
    exact olds

/-- An interface that is not in the difference is in neither configuration, or in
both with the same children. -/
theorem Turns.untouched (turns : Turns cfg change) (unlisted : ∀ dif ∈ ifaces change.diff, ifaceName dif ≠ x)
    (listed : x ∈ (ifaces cfg).map ifaceName ∨ x ∈ (ifaces change.cfg).map ifaceName) :
    ∃ o m, entry o ∈ entries cfg ∧ entry m ∈ entries change.cfg ∧ nameOf o = x ∧ nameOf m = x ∧ diffSiblings o m = [] := by
  have absent {n : Node} (member : n ∈ entries change.diff) (named : n.name = "interface") : nameOf n.children ≠ x := by
    obtain ⟨rest, inside⟩ := ifaces_of_mem member named
    exact fun same => unlisted _ inside ((ifaceName_cons _ _ _).trans same)
  have olds {o : List Node} (member : entry o ∈ entries cfg) (name : nameOf o = x) :
      ∃ m, entry m ∈ entries change.cfg ∧ nameOf m = x ∧ diffSiblings o m = [] := by
    rcases turns.entries_eq with both | ⟨none, _⟩ | ⟨_, same⟩
    · rcases turns.new.partner_entry (turns.old.body member) with ⟨gone, _⟩ | ⟨m, found, member', same⟩
      · refine absurd name (absent (n := (entry o).mark .delete) (both ▸ (mem_diffSiblings _ _).mpr ?_) rfl)
        exact .inl ⟨_, member, .inl ⟨gone, rfl⟩⟩
      · refine ⟨m, member', same.trans name, ?_⟩
        by_contra differ
        have differs := (diffNode_entry o m _).mpr ⟨differ, rfl⟩
        refine absent (both ▸ (mem_diffSiblings _ _).mpr (.inl ⟨_, member, .inr ⟨_, found, differs⟩⟩)) rfl ?_
        exact (nameOf_changed (turns.old.body member) m).trans name
    · simp [none] at member
    · exact absurd name (absent (n := entry o) (same ▸ member) rfl)
  have news {m : List Node} (member : entry m ∈ entries change.cfg) (name : nameOf m = x) :
      ∃ o, entry o ∈ entries cfg ∧ nameOf o = x := by
    rcases turns.entries_eq with both | ⟨_, same⟩ | ⟨none, _⟩
    · rcases turns.old.partner_entry (turns.new.body member) with ⟨fresh, _⟩ | ⟨o, _, member', same⟩
      · refine absurd name (absent (n := (entry m).mark .create) (both ▸ (mem_diffSiblings _ _).mpr ?_) rfl)
        exact .inr ⟨_, member, fresh, rfl⟩
      · exact ⟨o, member', same.trans name⟩
    · exact absurd name (absent (n := entry m) (same ▸ member) rfl)
    · simp [none] at member
  have found : ∃ o, entry o ∈ entries cfg ∧ nameOf o = x := by
    rcases listed with was | is
    · obtain ⟨cif, member, rfl⟩ := List.mem_map.mp was
      obtain ⟨o, rest, rfl, inside, _⟩ := turns.old.iface member
      exact ⟨o, inside, (ifaceName_of (lydChild_entry o rest none)).symm⟩
    · obtain ⟨cif, member, rfl⟩ := List.mem_map.mp is
      obtain ⟨m, rest, rfl, inside, _⟩ := turns.new.iface member
      exact news inside (ifaceName_of (lydChild_entry m rest none)).symm
  obtain ⟨o, member, name⟩ := found
  obtain ⟨m, member', name', same⟩ := olds member name
  exact ⟨o, m, member, member', name, name', same⟩

end Turns

end Netdag
