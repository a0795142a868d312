import InfixOS.Yang.Schema
import Mathlib.Data.List.TakeWhile

/-! What the accessors of lyx.c read. They look at the node a pointer leads to and
at the operation that its ancestors give it. -/
namespace Lyx
open Yang

/-- The node itself, without those that follow it. -/
def Ptr.node (p : Ptr) : Option Node := p.nodes.head?

theorem isNull_eq (p : Ptr) : p.isNull = p.node.isNone := by
  cases p with
  | mk nodes op =>
    cases nodes with
    | nil => rfl
    | cons n rest => rfl

theorem operation_eq (p : Ptr) : p.operation = p.node.bind fun n => n.data.operation.or p.inherited := by
  cases p with
  | mk nodes op =>
    cases nodes with
    | nil => rfl
    | cons n rest => rfl

theorem lydChild_eq (p : Ptr) : lydChild p = ⟨(p.node.map Node.children).getD [], p.operation⟩ := by
  cases p with
  | mk nodes op =>
    cases nodes with
    | nil => rfl
    | cons n rest => rfl

theorem getOp_of (below : lydChild p = ⟨nodes, op⟩) : lydxGetOp p = op.getD .none := by
  rw [lydChild_eq] at below
  exact congrArg (fun q : Ptr => q.inherited.getD .none) below

theorem getSibling_node (p : Ptr) (name : String) : (lydxGetSibling p name).node = childOf p.nodes name := by
  rw [Ptr.node, childOf, List.find?_eq_head?_dropWhile_not]
  simp [lydxGetSibling]

theorem getDescendant_node (p : Ptr) (path : List String) :
    (lydxGetDescendant p path).node = find p.nodes path := by
  induction path generalizing p with
  | nil => rfl
  | cons name more ih =>
    cases more with
    | nil => exact getSibling_node p name
    | cons next later =>
      rw [lydxGetDescendant, ih, find_cons p.nodes name (List.cons_ne_nil next later), lydChild_eq, getSibling_node]
      · cases childOf p.nodes name with
        | none => exact find_nil _
        | some n => rfl
      · simp

theorem getCattr_eq (p : Ptr) (name : String) : lydxGetCattr p name = valueOf (lydChild p).nodes name :=
  lydxGetAttr_eq _ _

/-- The child of this name of a node that has the children `nodes`. -/
theorem getChild_of (below : lydChild p = ⟨nodes, op⟩) (name : String) :
    (lydxGetChild p name).node = childOf nodes name ∧ (lydxGetChild p name).inherited = op := by
  rw [lydxGetChild, getSibling_node, below]
  exact ⟨rfl, rfl⟩

theorem getChild_operation (below : lydChild p = ⟨nodes, op⟩) (name : String) :
    (lydxGetChild p name).operation = (childOf nodes name).bind fun n => n.data.operation.or op := by
  rw [operation_eq, (getChild_of below name).1, (getChild_of below name).2]

theorem getChild_below (below : lydChild p = ⟨nodes, op⟩) (name : String) :
    lydChild (lydxGetChild p name) =
      ⟨((childOf nodes name).map Node.children).getD [], (childOf nodes name).bind fun n => n.data.operation.or op⟩ := by
  rw [lydChild_eq, getChild_operation below, (getChild_of below name).1]

/-- The operation on a node goes for all that is below it in containers. -/
theorem getDescendant_inherited {path : List String} (body : Body required closed sorted sub nodes)
    (entry : schemaAt sub path = some schema) (found : find nodes path = some n) (op : Option Operation) :
    (lydxGetDescendant ⟨nodes, op⟩ path).inherited = op := by
  induction path generalizing required closed sorted sub nodes with
  | nil => simp [schemaAt] at entry
  | cons name more ih =>
    cases more with
    | nil => rfl
    | cons next later =>
      rw [schemaAt] at entry
      · split at entry
        · rename_i here
          obtain ⟨c, first, found⟩ := Option.bind_eq_some_iff.mp found
          obtain ⟨below, rfl, body'⟩ := body.child_inner here first
          have down : lydChild (lydxGetSibling ⟨nodes, op⟩ name) = ⟨below, op⟩ := by
            rw [lydChild_eq, operation_eq, getSibling_node, first]
            rfl
          rw [lydxGetDescendant, down]
          · exact ih body' entry found
          · simp
        · simp at entry
      · simp

theorem getDescendant_below {path : List String} (body : Body required closed sorted sub nodes)
    (entry : schemaAt sub path = some schema) (below : lydChild p = ⟨nodes, op⟩) (found : find nodes path = some n) :
    lydChild (lydxGetDescendant (lydChild p) path) = ⟨n.children, n.data.operation.or op⟩ := by
  rw [lydChild_eq, operation_eq, getDescendant_node, below, getDescendant_inherited body entry found, found]
  rfl

theorem getDiff_old (node : Ptr.node p = some n) : (lydxGetDiff p).old =
    match lydxGetOp p with
    | .create => none
    | .delete => n.value
    | .none | .replace => n.data.origValue.or n.value := by
  obtain ⟨_ | ⟨m, rest⟩, op⟩ := p
  · simp [Ptr.node] at node
  · obtain rfl : m = n := by simpa [Ptr.node] using node
    simp only [lydxGetDiff]
    cases lydxGetOp ⟨m :: rest, op⟩ <;> rfl

theorem getDiff_new (node : Ptr.node p = some n) :
    (lydxGetDiff p).new = if lydxGetOp p = .delete then none else n.value := by
  obtain ⟨_ | ⟨m, rest⟩, op⟩ := p
  · simp [Ptr.node] at node
  · obtain rfl : m = n := by simpa [Ptr.node] using node
    simp only [lydxGetDiff]
    cases lydxGetOp ⟨m :: rest, op⟩ <;> rfl

/-- A loop over the entries of a list that looks at each entry by itself. -/
theorem map_forEach (p : Ptr) (name : String) (f : Ptr → β) (g : Node → β)
    (same : ∀ n rest, n ∈ p.nodes → n.name = name → f ⟨n :: rest, p.inherited⟩ = g n) :
    (lyxListForEach p name).map f = (p.nodes.filter fun n => n.name = name).map g := by
  obtain ⟨nodes, op⟩ := p
  simp only [lyxListForEach, List.map_map] at same ⊢
  induction nodes with
  | nil => rfl
  | cons n rest ih =>
    have later := ih fun m more member => same m more (List.mem_cons_of_mem _ member)
    rw [entriesFrom]
    by_cases named : n.name = name
    · rw [if_pos named, List.map_cons, later, List.filter_cons_of_pos (by simpa using named), List.map_cons,
        Function.comp_apply, same n rest List.mem_cons_self named]
    · rw [if_neg named, later, List.filter_cons_of_neg (by simpa using named)]

theorem flatMap_forEach (p : Ptr) (name : String) (f : Ptr → List β) (g : Node → List β)
    (same : ∀ n rest, n ∈ p.nodes → n.name = name → f ⟨n :: rest, p.inherited⟩ = g n) :
    (lyxListForEach p name).flatMap f = (p.nodes.filter fun n => n.name = name).flatMap g := by
  rw [List.flatMap_def, List.flatMap_def, map_forEach p name f g same]

end Lyx
