import InfixOS.Yang.Tree

/-! The tree accessors of src/confd/src/lib/lyx.c. A pointer to a node is the
list of siblings from that node on, with the operation its ancestors give it;
the null pointer has no node. -/
namespace Lyx
open Yang

structure Ptr where
  nodes : List Node
  inherited : Option Operation

def Ptr.null : Ptr := ⟨[], none⟩

/-- A top-level tree. -/
def Ptr.root (nodes : List Node) : Ptr := ⟨nodes, none⟩

def Ptr.isNull (p : Ptr) : Bool := p.nodes.isEmpty

/-- lyd_get_value. -/
def Ptr.value (p : Ptr) : Option String := p.nodes.head?.bind Node.value

def Ptr.isDefault (p : Ptr) : Bool := p.nodes.head?.any Node.isDefault

/-- The nearest operation on the way from a node to its root. -/
def Ptr.operation (p : Ptr) : Option Operation :=
  match p.nodes with
  | [] => none
  | n :: _ => n.data.operation.or p.inherited

def lydChild (p : Ptr) : Ptr :=
  match p.nodes with
  | [] => .null
  | n :: _ => ⟨n.children, p.operation⟩

/-- `lydx_get_op`. -/
def lydxGetOp (node : Ptr) : Operation := node.operation.getD .none

/-- `struct lydx_diff`. -/
structure LydxDiff where
  op : Operation
  modified : Bool
  isDefault : Bool
  wasDefault : Bool
  old : Option String
  val : Option String
  new : Option String
  deriving DecidableEq, Repr

/-- `lydx_get_diff`, which returns the field `modified`. -/
def lydxGetDiff (node : Ptr) : LydxDiff :=
  match node.nodes with
  | [] => ⟨.none, false, false, false, none, none, none⟩
  | n :: _ =>
    let op := lydxGetOp node
    let val := n.value
    let (old, wasDefault, new, isDefault) :=
      match op with
      | .delete => (val, n.isDefault, none, false)
      | .create => (none, false, val, n.isDefault)
      | .none | .replace => (n.data.origValue.or val, n.data.origDefault == some true, val, n.isDefault)
    ⟨op, (old.isSome && !wasDefault) || (new.isSome && !isDefault), isDefault, wasDefault, old, val, new⟩

def lydxGetSibling (sibling : Ptr) (name : String) : Ptr :=
  ⟨sibling.nodes.dropWhile fun n => n.name ≠ name, sibling.inherited⟩

def lydxGetChild (parent : Ptr) (name : String) : Ptr := lydxGetSibling (lydChild parent) name

/-- The first name is looked for among the siblings of `node` itself. -/
def lydxGetDescendant (node : Ptr) : List String → Ptr
  | [] => .null
  | [name] => lydxGetSibling node name
  | name :: more => lydxGetDescendant (lydChild (lydxGetSibling node name)) more

def lydxGetAttr (sibling : Ptr) (name : String) : Option String := (lydxGetSibling sibling name).value

def lydxGetCattr (parent : Ptr) (name : String) : Option String := lydxGetAttr (lydChild parent) name

def lydxIsEnabled (parent : Ptr) (name : String) : Bool := lydxGetCattr parent name = some "true"

def entriesFrom (name : String) : List Node → List (List Node)
  | [] => []
  | n :: rest => if n.name = name then (n :: rest) :: entriesFrom name rest else entriesFrom name rest

/-- The iterations of `LYX_LIST_FOR_EACH`. -/
def lyxListForEach (from' : Ptr) (name : String) : List Ptr :=
  (entriesFrom name from'.nodes).map fun nodes => ⟨nodes, from'.inherited⟩

theorem entriesFrom_ne_nil (member : nodes ∈ entriesFrom name all) : nodes ≠ [] := by
  induction all with
  | nil => simp [entriesFrom] at member
  | cons n rest ih =>
    rw [entriesFrom] at member
    split at member
    · rcases List.mem_cons.mp member with rfl | later
      · simp
      · exact ih later
    · exact ih member

/-- The entries of a list are nodes. -/
theorem lyxListForEach_not_null (member : p ∈ lyxListForEach from' name) : p.isNull = false := by
  obtain ⟨nodes, listed, rfl⟩ := List.mem_map.mp member
  simp [Ptr.isNull, entriesFrom_ne_nil listed]

theorem lydxGetAttr_eq (p : Ptr) (name : String) : lydxGetAttr p name = valueOf p.nodes name := by
  obtain ⟨nodes, op⟩ := p
  simp only [lydxGetAttr, lydxGetSibling, Ptr.value, valueOf]
  induction nodes with
  | nil => rfl
  | cons n rest ih =>
    by_cases same : n.name = name
    · simp [same]
    · simpa [same] using ih

/-- A child leaf is read through its node alone. -/
theorem lydxGetCattr_eq (n : Node) (rest : List Node) (op : Option Operation) (name : String) :
    lydxGetCattr ⟨n :: rest, op⟩ name = valueOf n.children name := lydxGetAttr_eq _ _

/-- Accessors other than the operation do not look at the ancestors. -/
theorem lydChild_nodes (same : p.nodes = q.nodes) : (lydChild p).nodes = (lydChild q).nodes := by
  obtain ⟨nodes, op⟩ := p
  obtain ⟨nodes', op'⟩ := q
  obtain rfl : nodes = nodes' := same
  cases nodes with
  | nil => rfl
  | cons n rest => rfl

theorem lydxGetDescendant_nodes (names : List String) (same : p.nodes = q.nodes) :
    (lydxGetDescendant p names).nodes = (lydxGetDescendant q names).nodes := by
  induction names generalizing p q with
  | nil => rfl
  | cons name more ih =>
    have here : (lydxGetSibling p name).nodes = (lydxGetSibling q name).nodes := by
      simp only [lydxGetSibling, same]
    cases more with
    | nil => exact here
    | cons next later => exact ih (lydChild_nodes here)

theorem lydxGetCattr_nodes (name : String) (same : p.nodes = q.nodes) :
    lydxGetCattr p name = lydxGetCattr q name := by
  rw [lydxGetCattr, lydxGetCattr, lydxGetAttr_eq, lydxGetAttr_eq, lydChild_nodes same]

theorem isNull_nodes {p q : Ptr} (same : p.nodes = q.nodes) : p.isNull = q.isNull := by
  simp only [Ptr.isNull, same]

end Lyx
