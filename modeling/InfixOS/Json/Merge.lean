import Mathlib.Data.List.Induction

/-! The recursive merge of JSON objects. What a merged object has at a path is what
the last of its parts says that says anything about the path. -/
namespace Json

/-- A value, or the lack of one. Everything that is not an object is an atom, arrays
included. The fields of an object have no order. -/
inductive Tree (α : Type) where
  | absent
  | atom (value : α)
  | obj (fields : String → Tree α)

/-- What there is at a path: an object, or an atom with its value. -/
inductive Content (α : Type) where
  | atom (value : α)
  | object
  deriving DecidableEq

variable {α : Type}

namespace Tree

def empty : Tree α := .obj fun _ => .absent

/-- `a * b` of jq: objects are merged field by field, and otherwise `b` wins. -/
def merge : Tree α → Tree α → Tree α
  | a, .absent => a
  | .obj f, .obj g => .obj fun key => merge (f key) (g key)
  | _, b => b

def content : Tree α → List String → Option (Content α)
  | .absent, _ => none
  | .atom value, [] => some (.atom value)
  | .atom _, _ :: _ => none
  | .obj _, [] => some .object
  | .obj f, key :: path => (f key).content path

/-- What a tree says about a path. Where it has an atom, it says that there is
nothing below. -/
def tells : Tree α → List String → Option (Option (Content α))
  | .absent, _ => none
  | .atom value, [] => some (some (.atom value))
  | .atom _, _ :: _ => some none
  | .obj _, [] => some (some .object)
  | .obj f, key :: path => (f key).tells path

theorem content_eq (t : Tree α) (path : List String) : t.content path = (t.tells path).getD none := by
  induction t generalizing path with
  | absent => rfl
  | atom value => cases path <;> rfl
  | obj fields ih =>
    cases path with
    | nil => rfl
    | cons key path => exact ih key path

/-- A tree is known by what it has at all paths. -/
theorem ext_content {a b : Tree α} (same : ∀ path, a.content path = b.content path) : a = b := by
  induction a generalizing b with
  | absent =>
    cases b with
    | absent => rfl
    | atom value => simpa [content] using same []
    | obj fields => simpa [content] using same []
  | atom value =>
    cases b with
    | absent => simpa [content] using same []
    | atom value' => simpa [content] using same []
    | obj fields => simpa [content] using same []
  | obj fields ih =>
    cases b with
    | absent => simpa [content] using same []
    | atom value => simpa [content] using same []
    | obj fields' => exact congrArg Tree.obj (funext fun key => ih key fun path => same (key :: path))

theorem content_merge (a b : Tree α) (path : List String) : (a.merge b).content path = (b.tells path).getD (a.content path) := by
  induction b generalizing a path with
  | absent => cases a <;> rfl
  | atom value =>
    have wins : a.merge (.atom value) = .atom value := by cases a <;> rfl
    rw [wins]
    cases path <;> rfl
  | obj g ih =>
    cases a with
    | obj f =>
      cases path with
      | nil => rfl
      | cons key path => exact ih key (f key) path
    | absent =>
      rw [show merge .absent (.obj g) = .obj g from rfl, content_eq]
      cases (Tree.obj g).tells path <;> rfl
    | atom value =>
      rw [show merge (.atom value) (.obj g) = .obj g from rfl, content_eq]
      -- Below an atom there is nothing to fall back on, and at its place an object wins.
      cases path with
      | nil => rfl
      | cons key path => cases (Tree.obj g).tells (key :: path) <;> rfl

end Tree

/-- `reduce .[] as $item ({}; . * $item)`. -/
def mergeAll (parts : List (Tree α)) : Tree α := parts.foldl Tree.merge .empty

theorem mergeAll_snoc (parts : List (Tree α)) (last : Tree α) : mergeAll (parts ++ [last]) = (mergeAll parts).merge last := by
  rw [mergeAll, List.foldl_append]
  rfl

/-- What the parts say about a path, one after the other. -/
def sayings (parts : List (Tree α)) (path : List String) : List (Option (Content α)) :=
  parts.filterMap fun part => part.tells path

theorem content_mergeAll (parts : List (Tree α)) (path : List String) :
    (mergeAll parts).content path = ((sayings parts path).getLast?).getD (Tree.empty.content path) := by
  induction parts using List.reverseRecOn with
  | nil => rfl
  | append_singleton parts last ih =>
    rw [mergeAll_snoc, Tree.content_merge, ih, sayings, sayings, List.filterMap_append]
    cases said : last.tells path with
    | none => simp [said]
    | some saying => simp [said]

end Json
