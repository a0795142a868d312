import InfixOS.Core.Reading

/-! The two sides of a difference. A leaf of the difference of two data trees is
read through the operation of its topmost changed ancestor and through its own
metadata, and this gives what the leaf was and what it is. -/
namespace Yang

/-- What a schema says of a node: its kind and, for what is below it, the keys of
the list it is an entry of. -/
inductive Kind where
  | leaf
  | leafList
  | inner (keys : List String) (sub : String → Kind)

abbrev Key := String × List (Option String)

/-- A node of a data tree. Keys are leaves that are never left to their default. -/
inductive Conforms : Kind → Node → Prop
  | leaf : Conforms .leaf (.leaf name value isDefault .plain)
  | item : Conforms .leafList (.item name value .plain)
  | inner (distinct : (children.map Node.key).Nodup) (each : ∀ n ∈ children, Conforms (sub n.name) n)
      (keyed : ∀ key ∈ keys, ∃ value, .leaf key value false .plain ∈ children) :
      Conforms (.inner keys sub) (.inner name keys .plain children)

/-- The nodes below an entry, or those of a whole tree. -/
structure Siblings (keys : List String) (sub : String → Kind) (nodes : List Node) : Prop where
  distinct : (nodes.map Node.key).Nodup
  each : n ∈ nodes → Conforms (sub n.name) n
  keyed : key ∈ keys → ∃ value, .leaf key value false .plain ∈ nodes

def nodeAt (nodes : List Node) (key : Key) : Option Node := nodes.find? fun n => n.key = key

/-- The value of a leaf and whether it is a default. -/
def Node.setting : Node → Option (String × Bool)
  | .leaf _ value isDefault _ => some (value, isDefault)
  | _ => none

/-- The leaf at the end of a path of keys. -/
def leafAt (nodes : List Node) : List Key → Option (String × Bool)
  | [] => none
  | [key] => (nodeAt nodes key).bind Node.setting
  | key :: more => (nodeAt nodes key).bind fun n => leafAt n.children more

section Siblings
variable {keys : List String} {sub : String → Kind} {nodes old new : List Node} {n o m : Node}

theorem conforms_below (conforms : Conforms kind (.inner name keys data children)) :
    ∃ sub, kind = .inner keys sub ∧ Siblings keys sub children := by
  cases conforms with
  | inner distinct each keyed => exact ⟨_, rfl, distinct, fun member => each _ member, fun member => keyed _ member⟩

theorem Conforms.plain (conforms : Conforms kind n) : n.data = .plain := by
  cases conforms with
  | leaf => rfl
  | item => rfl
  | inner => rfl

theorem Conforms.kind_leaf (conforms : Conforms kind (.leaf name value isDefault data)) : kind = .leaf := by
  cases conforms with
  | leaf => rfl

theorem conforms_leaf_kind (conforms : Conforms .leaf n) : ∃ name value isDefault, n = .leaf name value isDefault .plain := by
  cases conforms with
  | leaf => exact ⟨_, _, _, rfl⟩

theorem conforms_inner_kind (conforms : Conforms (.inner keys sub) n) :
    ∃ name children, n = .inner name keys .plain children ∧ Siblings keys sub children := by
  cases conforms with
  | inner distinct each keyed => exact ⟨_, _, rfl, distinct, fun member => each _ member, fun member => keyed _ member⟩

theorem Siblings.nodeAt_eq (siblings : Siblings keys sub nodes) (member : n ∈ nodes) : nodeAt nodes n.key = some n := by
  rw [nodeAt]
  cases found : nodes.find? fun m => m.key = n.key with
  | none => exact absurd (List.find?_eq_none.mp found n member) (by simp)
  | some m =>
    have same : m.key = n.key := by simpa using List.find?_some found
    rw [List.inj_on_of_nodup_map siblings.distinct (List.mem_of_find?_eq_some found) member same]

theorem partner_eq_nodeAt (nodes : List Node) (n : Node) : partner nodes n = nodeAt nodes n.key := rfl

/-- A key leaf, which is told from its siblings by its name. -/
theorem Siblings.key_leaf (siblings : Siblings keys sub nodes) (member : n ∈ nodes) (key : n.name ∈ keys) :
    ∃ value, n = .leaf n.name value false .plain ∧ valueOf nodes n.name = some value := by
  obtain ⟨value, listed⟩ := siblings.keyed key
  have own : ∀ m ∈ nodes, m.name = n.name → m = .leaf n.name value false .plain := by
    intro m inside named
    have conforms := siblings.each inside
    rw [named, show sub n.name = .leaf from (siblings.each listed).kind_leaf] at conforms
    obtain ⟨name, value', flag, rfl⟩ := conforms_leaf_kind conforms
    obtain rfl : name = n.name := named
    exact List.inj_on_of_nodup_map siblings.distinct inside listed rfl
  refine ⟨value, own n member rfl, ?_⟩
  rw [valueOf_eq, childOf]
  cases found : nodes.find? fun m => m.name = n.name with
  | none => exact absurd (List.find?_eq_none.mp found _ listed) (by simp [Node.name])
  | some m =>
    rw [own m (List.mem_of_find?_eq_some found) (by simpa using List.find?_some found)]
    rfl

end Siblings

end Yang

namespace Lyx
open Yang

/-- A pointer to a node at the end of a path of keys, at any depth. -/
inductive Occurs : Ptr → List Key → Ptr → Prop
  | here : Occurs ⟨before ++ n :: rest, op⟩ [n.key] ⟨n :: rest, op⟩
  | inside (deeper : Occurs (lydChild ⟨n :: rest, op⟩) (next :: path) p) :
      Occurs ⟨before ++ n :: rest, op⟩ (n.key :: next :: path) p

/-- What `lydx_get_diff` should give for a leaf with these two settings. -/
structure BothSides (diff : LydxDiff) (was is : Option (String × Bool)) : Prop where
  old : diff.old = was.map Prod.fst
  wasDefault : diff.wasDefault = (was.map Prod.snd).getD false
  new : diff.new = is.map Prod.fst
  isDefault : diff.isDefault = (is.map Prod.snd).getD false

/-- A leaf has a value that is not its default. -/
def IsSet (setting : Option (String × Bool)) : Prop := ∃ value, setting = some (value, false)

theorem occurs_nil (occurs : Occurs ⟨[], op⟩ path p) : False := by
  generalize same : (⟨[], op⟩ : Ptr) = top at occurs
  cases occurs with
  | here => simp at same
  | inside _ => simp at same

/-- The returned value follows from the two sides. -/
theorem BothSides.modified (sides : BothSides (lydxGetDiff p) was is) :
    (lydxGetDiff p).modified = true ↔ IsSet was ∨ IsSet is := by
  have returned : (lydxGetDiff p).modified =
      (((lydxGetDiff p).old.isSome && !(lydxGetDiff p).wasDefault) ||
        ((lydxGetDiff p).new.isSome && !(lydxGetDiff p).isDefault)) := by
    obtain ⟨_ | ⟨n, rest⟩, op⟩ := p
    · rfl
    · rfl
  have set (setting : Option (String × Bool)) :
      ((setting.map Prod.fst).isSome && !(setting.map Prod.snd).getD false) = true ↔ IsSet setting := by
    rcases setting with _ | ⟨value, _ | _⟩
    · simp [IsSet]
    · simp [IsSet]
    · simp [IsSet]
  rw [returned, sides.old, sides.wasDefault, sides.new, sides.isDefault, Bool.or_eq_true, set, set]

section Levels
variable {sub : String → Kind} {keys : List String} {nodes old new before rest : List Node} {n : Node}

theorem sides_deleted (op : lydxGetOp p = .delete) (node : p.node = some (.leaf name value flag data)) :
    BothSides (lydxGetDiff p) (some (value, flag)) none := by
  obtain ⟨_ | ⟨n, rest⟩, inherited⟩ := p
  · simp [Ptr.node] at node
  · obtain rfl : n = .leaf name value flag data := by simpa [Ptr.node] using node
    constructor <;> simp [lydxGetDiff, op, Node.value, Node.isDefault]

theorem sides_created (op : lydxGetOp p = .create) (node : p.node = some (.leaf name value flag data)) :
    BothSides (lydxGetDiff p) none (some (value, flag)) := by
  obtain ⟨_ | ⟨n, rest⟩, inherited⟩ := p
  · simp [Ptr.node] at node
  · obtain rfl : n = .leaf name value flag data := by simpa [Ptr.node] using node
    constructor <;> simp [lydxGetDiff, op, Node.value, Node.isDefault]

/-- A leaf that is there on both sides. -/
theorem sides_kept (op : lydxGetOp p = .none ∨ lydxGetOp p = .replace)
    (node : p.node = some (.leaf name value flag data)) :
    BothSides (lydxGetDiff p) (some (data.origValue.getD value, data.origDefault == some true)) (some (value, flag)) := by
  obtain ⟨_ | ⟨n, rest⟩, inherited⟩ := p
  · simp [Ptr.node] at node
  · obtain rfl : n = .leaf name value flag data := by simpa [Ptr.node] using node
    rcases op with op | op
    · constructor <;> simp [lydxGetDiff, op, Node.value, Node.isDefault, Node.data]
    · constructor <;> simp [lydxGetDiff, op, Node.value, Node.isDefault, Node.data]

/-- Below a node that is created or deleted as a whole. -/
theorem occurs_whole (occurs : Occurs ⟨nodes, some o⟩ path p) (siblings : Siblings keys sub nodes)
    (leaf : p.node = some (.leaf name value flag data)) :
    lydxGetOp p = o ∧ leafAt nodes path = some (value, flag) := by
  generalize top : (⟨nodes, some o⟩ : Ptr) = q at occurs
  induction occurs generalizing keys sub nodes with
  | @here before n rest op =>
    obtain ⟨rfl, rfl⟩ := Ptr.mk.inj top
    obtain rfl : n = .leaf name value flag data := by simpa [Ptr.node] using leaf
    have member : Node.leaf name value flag data ∈ before ++ .leaf name value flag data :: rest := by simp
    constructor
    · rw [lydxGetOp, operation_eq]
      simp [Ptr.node, (siblings.each member).plain, Meta.plain]
    · rw [leafAt, siblings.nodeAt_eq member]
      rfl
  | @inside n rest op next path p before deeper ih =>
    obtain ⟨rfl, rfl⟩ := Ptr.mk.inj top
    have member : n ∈ before ++ n :: rest := by simp
    cases n with
    | leaf => exact (occurs_nil deeper).elim
    | item => exact (occurs_nil deeper).elim
    | inner name' keys' data' children =>
      obtain ⟨sub', _, below⟩ := conforms_below (siblings.each member)
      obtain rfl : data' = .plain := (siblings.each member).plain
      obtain ⟨same, found⟩ := ih below leaf rfl
      refine ⟨same, ?_⟩
      rw [leafAt, siblings.nodeAt_eq member]
      · exact found
      · simp

theorem valueOf_changed (siblings : Siblings keys sub nodes) (changes : List Node) (key : k ∈ keys) :
    valueOf (keyLeaves keys nodes ++ changes) k = valueOf nodes k := by
  obtain ⟨value, listed⟩ := siblings.keyed key
  have found : (childOf nodes k).isSome := by
    rw [childOf, List.find?_isSome]
    exact ⟨_, listed, by simp [Node.name]⟩
  obtain ⟨n, same⟩ := Option.isSome_iff_exists.mp found
  rw [valueOf_eq, valueOf_eq, childOf_append, childOf_keyLeaves, if_pos key, same]
  rfl

theorem diffNode_leaf_shape (differs : diffNode (.leaf name value flag data) m = some n) :
    ∃ value' flag' data', n = .leaf name value' flag' data' := by
  rw [diffNode] at differs
  split at differs
  · exact ⟨_, _, _, (Option.some.inj differs).symm⟩
  · split at differs
    · exact ⟨_, _, _, (Option.some.inj differs).symm⟩
    · simp at differs

/-- A changed node is found under the key it had. -/
theorem diffNode_key (conforms : Conforms kind o) (differs : diffNode o m = some n) : n.key = o.key := by
  cases o with
  | leaf name value flag data =>
    obtain ⟨_, _, _, rfl⟩ := diffNode_leaf_shape differs
    rfl
  | item => simp [diffNode] at differs
  | inner name keys data children =>
    obtain ⟨sub, _, below⟩ := conforms_below conforms
    obtain ⟨_, rfl⟩ := diffNode_inner_eq_some.mp differs
    simp only [Node.key, Prod.mk.injEq, true_and]
    exact List.map_congr_left fun k key => valueOf_changed below _ key

/-- The partner of a node has its kind. -/
theorem partner_conforms (siblings : Siblings keys sub new) (found : partner new o = some m) :
    m ∈ new ∧ m.key = o.key ∧ Conforms (sub o.name) m := by
  have member := List.mem_of_find?_eq_some found
  have same : m.key = o.key := by simpa using List.find?_some found
  refine ⟨member, same, ?_⟩
  have named : m.name = o.name := by rw [← m.key_fst, same, o.key_fst]
  exact named ▸ siblings.each member

/-- A leaf that has changed. -/
theorem sides_changed (conforms : Conforms (sub o.name) o) (conforms' : Conforms (sub o.name) m)
    (differs : diffNode o m = some (.leaf name value flag data)) (inherited : Option Operation) :
    BothSides (lydxGetDiff ⟨.leaf name value flag data :: rest, inherited⟩) o.setting m.setting := by
  cases o with
  | item => simp [diffNode] at differs
  | inner =>
    obtain ⟨_, same⟩ := diffNode_inner_eq_some.mp differs
    simp at same
  | leaf name' value' flag' data' =>
    rw [conforms.kind_leaf] at conforms'
    obtain ⟨name'', value'', flag'', rfl⟩ := conforms_leaf_kind conforms'
    rw [diffNode] at differs
    split at differs
    · obtain ⟨rfl, rfl, rfl, rfl⟩ := Node.leaf.inj (Option.some.inj differs)
      have op : lydxGetOp ⟨.leaf name' ((Node.leaf name'' value'' flag'' .plain).value.getD "") flag''
          ⟨some .replace, some value', some flag'⟩ :: rest, inherited⟩ = .replace := rfl
      have sides := sides_kept (.inr op) rfl
      cases flag' <;> exact sides
    · rename_i same
      split at differs
      · obtain ⟨rfl, rfl, rfl, rfl⟩ := Node.leaf.inj (Option.some.inj differs)
        have equal : value' = value'' := by simpa [Node.value] using same
        have op : lydxGetOp ⟨.leaf name' value' flag'' ⟨some .none, none, some flag'⟩ :: rest, inherited⟩ = .none := rfl
        have sides := sides_kept (.inl op) rfl
        rw [← equal]
        cases flag' <;> exact sides
      · simp at differs

theorem key_mark (op : Operation) (n : Node) : (n.mark op).key = n.key := by cases n <;> rfl

theorem mark_leaf {n : Node} (marked : n.mark op = .leaf name value flag data) : n.setting = some (value, flag) := by
  cases n <;> simp_all [Node.mark, Node.setting]

/-- Below a node that carries an operation of its own. -/
theorem occurs_marked (conforms : Conforms kind n) (deeper : Occurs (lydChild ⟨n.mark o :: rest, op⟩) path p)
    (leaf : p.node = some (.leaf name value flag data)) :
    lydxGetOp p = o ∧ leafAt n.children path = some (value, flag) := by
  have child : lydChild ⟨n.mark o :: rest, op⟩ = ⟨n.children, some o⟩ := by cases n <;> rfl
  rw [child] at deeper
  cases n with
  | leaf => exact (occurs_nil deeper).elim
  | item => exact (occurs_nil deeper).elim
  | inner =>
    obtain ⟨_, _, below⟩ := conforms_below conforms
    exact occurs_whole deeper below leaf

section Both
variable {op : Option Operation} (quiet : op.getD .none = .none) (siblings : Siblings keys sub old)
  (siblings' : Siblings keys sub new) (same : ∀ k ∈ keys, valueOf old k = valueOf new k)
include quiet siblings siblings' same

/-- A leaf among nodes of both trees: it is a key, was deleted, changed or created. -/
theorem sides_here (member : .leaf name value flag data ∈ keyLeaves keys old ++ diffSiblings old new) :
    BothSides (lydxGetDiff ⟨.leaf name value flag data :: rest, op⟩)
      (leafAt old [(Node.leaf name value flag data).key]) (leafAt new [(Node.leaf name value flag data).key]) := by
  rw [leafAt, leafAt]
  rcases List.mem_append.mp member with keyed | differs
  · obtain ⟨inside, key⟩ := List.mem_filter.mp keyed
    replace key : name ∈ keys := of_decide_eq_true key
    obtain ⟨v, shape, here⟩ := siblings.key_leaf inside key
    obtain ⟨_, rfl, rfl, rfl⟩ := Node.leaf.inj shape
    obtain ⟨v, there⟩ := siblings'.keyed key
    obtain ⟨_, shape', here'⟩ := siblings'.key_leaf there key
    obtain ⟨_, rfl, _, _⟩ := Node.leaf.inj shape'
    obtain rfl : value = v := Option.some.inj (here.symm.trans ((same name key).trans here'))
    have op : lydxGetOp ⟨.leaf name value false .plain :: rest, op⟩ = .none := quiet
    rw [siblings.nodeAt_eq inside, siblings'.nodeAt_eq there]
    exact sides_kept (.inl op) rfl
  · rcases (mem_diffSiblings _ _).mp differs with
      ⟨o, inside, ⟨gone, marked⟩ | ⟨m, found, changed⟩⟩ | ⟨m, inside, fresh, marked⟩
    · have op : lydxGetOp ⟨.leaf name value flag data :: rest, op⟩ = .delete := by rw [marked]; cases o <;> rfl
      rw [partner_eq_nodeAt, ← key_mark .delete o, ← marked] at gone
      rw [gone, marked, key_mark, siblings.nodeAt_eq inside, ← marked, Option.bind_some, mark_leaf marked.symm]
      exact sides_deleted op rfl
    · have conforms := siblings.each inside
      obtain ⟨there, key, conforms'⟩ := partner_conforms siblings' found
      rw [diffNode_key conforms changed, siblings.nodeAt_eq inside, ← key, siblings'.nodeAt_eq there]
      exact sides_changed conforms conforms' changed op
    · have op : lydxGetOp ⟨.leaf name value flag data :: rest, op⟩ = .create := by rw [marked]; cases m <;> rfl
      rw [partner_eq_nodeAt, ← key_mark .create m, ← marked] at fresh
      rw [fresh, marked, key_mark, siblings'.nodeAt_eq inside, ← marked, Option.bind_some, mark_leaf marked.symm]
      exact sides_created op rfl

/-- At any depth, by induction on the path. Only what has changed in both trees goes
on to nodes of both. -/
theorem occurs_diff (occurs : Occurs ⟨keyLeaves keys old ++ diffSiblings old new, op⟩ path p)
    (leaf : p.node = some (.leaf name value flag data)) :
    BothSides (lydxGetDiff p) (leafAt old path) (leafAt new path) := by
  generalize top : (⟨keyLeaves keys old ++ diffSiblings old new, op⟩ : Ptr) = q at occurs
  induction occurs generalizing keys sub old new op with
  | @here before n rest op' =>
    obtain ⟨nodes, rfl⟩ := Ptr.mk.inj top
    obtain rfl : n = .leaf name value flag data := by simpa [Ptr.node] using leaf
    exact sides_here quiet siblings siblings' same (by simp [nodes])
  | @inside n rest op' next path p before deeper ih =>
    obtain ⟨nodes, rfl⟩ := Ptr.mk.inj top
    have member : n ∈ keyLeaves keys old ++ diffSiblings old new := by simp [nodes]
    have down (nodes : List Node) : leafAt nodes (n.key :: next :: path) =
        (nodeAt nodes n.key).bind fun n => leafAt n.children (next :: path) := rfl
    rw [down, down]
    rcases List.mem_append.mp member with keyed | differs
    · obtain ⟨inside, key⟩ := List.mem_filter.mp keyed
      obtain ⟨v, shape, _⟩ := siblings.key_leaf inside (of_decide_eq_true key)
      rw [shape] at deeper
      exact (occurs_nil deeper).elim
    · rcases (mem_diffSiblings _ _).mp differs with
        ⟨o, inside, ⟨gone, rfl⟩ | ⟨m, found, changed⟩⟩ | ⟨m, inside, fresh, rfl⟩
      · obtain ⟨op, here⟩ := occurs_marked (siblings.each inside) deeper leaf
        rw [partner_eq_nodeAt] at gone
        rw [key_mark, gone, siblings.nodeAt_eq inside, Option.bind_some, here]
        exact sides_deleted op leaf
      · have conforms := siblings.each inside
        obtain ⟨there, key, conforms'⟩ := partner_conforms siblings' found
        rw [diffNode_key conforms changed, siblings.nodeAt_eq inside, ← key, siblings'.nodeAt_eq there]
        cases o with
        | leaf =>
          obtain ⟨_, _, _, rfl⟩ := diffNode_leaf_shape changed
          exact (occurs_nil deeper).elim
        | item => simp [diffNode] at changed
        | inner name' keys' data' children =>
          obtain ⟨sub', kind, below⟩ := conforms_below conforms
          rw [kind] at conforms'
          obtain ⟨name'', children', rfl, below'⟩ := conforms_inner_kind conforms'
          obtain ⟨_, rfl⟩ := diffNode_inner_eq_some.mp changed
          have kept : (some Operation.none).getD .none = .none := rfl
          refine ih kept below below' (fun k member => ?_) leaf rfl
          exact (List.map_inj_left.mp (Prod.mk.inj key).2 k member).symm
      · obtain ⟨op, here⟩ := occurs_marked (siblings'.each inside) deeper leaf
        rw [partner_eq_nodeAt] at fresh
        rw [key_mark, fresh, siblings'.nodeAt_eq inside, Option.bind_some, here]
        exact sides_created op leaf

end Both

end Levels

/-- For every leaf of the difference of two trees of one schema, at any depth,
`lydx_get_diff` gives its setting in each of the two, and returns whether one of
these is not a default. -/
theorem lydx_get_diff_both_sides (sub : String → Kind) (old new : List Node) (tree : Siblings [] sub old)
    (tree' : Siblings [] sub new) (path : List Key) (p : Ptr) (occurs : Occurs (.root (diffSiblings old new)) path p)
    (name value : String) (flag : Bool) (data : Meta) (leaf : p.node = some (.leaf name value flag data)) :
    BothSides (lydxGetDiff p) (leafAt old path) (leafAt new path) ∧
      ((lydxGetDiff p).modified = true ↔ IsSet (leafAt old path) ∨ IsSet (leafAt new path)) := by
  have top : Ptr.root (diffSiblings old new) = ⟨keyLeaves [] old ++ diffSiblings old new, none⟩ := by
    rw [keyLeaves_nil]
    rfl
  rw [top] at occurs
  have sides := occurs_diff rfl tree tree' (by simp) occurs leaf
  exact ⟨sides, sides.modified⟩

/-- An entry of a list, with a leaf that may be left to its default. -/
def mtuTree (mtu : String) (isDefault : Bool) : List Node :=
  [.inner "interface" ["name"] .plain [.leaf "name" "eth0" false .plain, .leaf "mtu" mtu isDefault .plain]]

theorem mtuTree_siblings (mtu : String) (isDefault : Bool) :
    Siblings [] (fun _ => .inner ["name"] fun _ => .leaf) (mtuTree mtu isDefault) where
  distinct := by simp [mtuTree]
  each := by
    intro n member
    obtain rfl := List.mem_singleton.mp member
    refine .inner (by simp [Node.key]) ?_ (by simp)
    intro n member
    rcases List.mem_pair.mp member with rfl | rfl
    · exact .leaf
    · exact .leaf
  keyed := by simp

/-- The leaf in the difference between the default and another value. -/
def mtuLeaf : Ptr := ⟨[.leaf "mtu" "9000" false ⟨some .replace, some "1500", some true⟩], some .none⟩

/-- The default was in use, and now it is not. -/
theorem lydx_get_diff_both_sides_mtu :
    BothSides (lydxGetDiff mtuLeaf) (some ("1500", true)) (some ("9000", false)) ∧
      (lydxGetDiff mtuLeaf).modified = true := by
  have entry : Occurs ⟨[.leaf "name" "eth0" false .plain] ++ mtuLeaf.nodes, some .none⟩ [("mtu", [])] mtuLeaf := .here
  have occurs : Occurs ⟨[] ++ diffSiblings (mtuTree "1500" true) (mtuTree "9000" false), none⟩
      [("interface", [some "eth0"]), ("mtu", [])] mtuLeaf := .inside entry
  obtain ⟨sides, modified⟩ := lydx_get_diff_both_sides _ _ _ (mtuTree_siblings "1500" true) (mtuTree_siblings "9000" false)
    _ _ occurs _ _ _ _ rfl
  exact ⟨sides, modified.mpr (.inr ⟨"9000", rfl⟩)⟩

end Lyx
