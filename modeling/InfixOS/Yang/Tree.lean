import Mathlib.Data.List.Basic

/-! Data trees and their differences, as libyang keeps them. A difference is a
tree itself: the topmost changed nodes carry an operation, which holds for
everything below them. -/
namespace Yang

inductive Operation where
  | none
  | create
  | delete
  | replace
  deriving DecidableEq, Repr

/-- The metadata of a node of a difference. -/
structure Meta where
  operation : Option Operation
  origValue : Option String
  origDefault : Option Bool
  deriving DecidableEq, Repr

def Meta.plain : Meta := ⟨.none, .none, .none⟩

/-- `keys` names the key leaves of a list entry; a container has none. An `item`
is an entry of a leaf-list. -/
inductive Node where
  | leaf (name value : String) (isDefault : Bool) (data : Meta)
  | item (name value : String) (data : Meta)
  | inner (name : String) (keys : List String) (data : Meta) (children : List Node)

namespace Node

def name : Node → String
  | leaf name _ _ _ | item name _ _ | inner name _ _ _ => name

def value : Node → Option String
  | leaf _ value _ _ | item _ value _ => some value
  | inner _ _ _ _ => none

def isDefault : Node → Bool
  | leaf _ _ isDefault _ => isDefault
  | item _ _ _ | inner _ _ _ _ => false

def data : Node → Meta
  | leaf _ _ _ data | item _ _ data | inner _ _ data _ => data

def children : Node → List Node
  | leaf _ _ _ _ | item _ _ _ => []
  | inner _ _ _ children => children

/-- A new operation in place of the node's own. -/
def mark (op : Operation) : Node → Node
  | leaf name value isDefault data => leaf name value isDefault { data with operation := some op }
  | item name value data => item name value { data with operation := some op }
  | inner name keys data children => inner name keys { data with operation := some op } children

end Node

/-- The value of the first child of this name. -/
def valueOf (nodes : List Node) (name : String) : Option String :=
  (nodes.find? fun n => n.name = name).bind Node.value

/-- What tells a node from its siblings. -/
def Node.key : Node → String × List (Option String)
  | leaf name _ _ _ => (name, [])
  | item name value _ => (name, [some value])
  | inner name keys _ children => (name, keys.map (valueOf children))

def partner (nodes : List Node) (n : Node) : Option Node := nodes.find? fun m => m.key = n.key

def keyLeaves (keys : List String) (children : List Node) : List Node :=
  children.filter fun n => n.name ∈ keys

mutual

/-- The difference of two nodes of one key. -/
def diffNode : Node → Node → Option Node
  | .leaf name value isDefault _, new =>
    if some value ≠ new.value then
      some (.leaf name (new.value.getD "") new.isDefault ⟨some .replace, some value, some isDefault⟩)
    else if isDefault ≠ new.isDefault then
      some (.leaf name value new.isDefault ⟨some .none, .none, some isDefault⟩)
    else none
  | .item _ _ _, _ => none
  | .inner name keys _ children, new =>
    match diffChildren children new.children ++
        (new.children.filter fun n => (partner children n).isNone).map (Node.mark .create) with
    | [] => none
    | changes => some (.inner name keys ⟨some .none, .none, .none⟩ (keyLeaves keys children ++ changes))

/-- What became of the old siblings. -/
def diffChildren : List Node → List Node → List Node
  | [], _ => []
  | old :: rest, new =>
    (match partner new old with
      | none => [old.mark .delete]
      | some found => (diffNode old found).toList) ++ diffChildren rest new

end

/-- The difference of two lists of siblings: what was changed or deleted, in the
old order, then what was created. -/
def diffSiblings (old new : List Node) : List Node :=
  diffChildren old new ++ (new.filter fun n => (partner old n).isNone).map (Node.mark .create)

/-- Both trees of one entry are kept by its difference: the key leaves come
along without an operation of their own. -/
example : (diffSiblings
    [.inner "entry" ["id"] .plain [.leaf "id" "a" false .plain, .leaf "on" "true" true .plain]]
    [.inner "entry" ["id"] .plain [.leaf "id" "a" false .plain, .leaf "on" "no" false .plain]]).map
      (fun n => (n.name, n.children.map Node.name, n.children.map fun c => c.data.operation)) =
    [("entry", ["id", "on"], [none, some .replace])] := by decide

end Yang
