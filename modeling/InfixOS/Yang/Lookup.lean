import InfixOS.Yang.Diff

/-! Looking up nodes by name in a difference. A node that has no siblings of its
name is found there as it is found in the two trees. -/
namespace Yang

/-- The first child of this name. -/
def childOf (nodes : List Node) (name : String) : Option Node := nodes.find? fun n => n.name = name

theorem valueOf_eq (nodes : List Node) (name : String) : valueOf nodes name = (childOf nodes name).bind Node.value := rfl

theorem childOf_name (found : childOf nodes name = some n) : n.name = name := by
  simpa using List.find?_some found

theorem childOf_mem (found : childOf nodes name = some n) : n ∈ nodes := List.mem_of_find?_eq_some found

theorem childOf_eq_none : childOf nodes name = none ↔ ∀ n ∈ nodes, n.name ≠ name := by
  simp [childOf]

theorem childOf_append (first second : List Node) (name : String) :
    childOf (first ++ second) name = (childOf first name).or (childOf second name) := by
  simp [childOf, List.find?_append]

theorem Node.key_fst (n : Node) : n.key.1 = n.name := by cases n <;> rfl

/-- No two of the nodes have this name, and the one that does has no keys. -/
structure Alone (name : String) (nodes : List Node) : Prop where
  once : n ∈ nodes → m ∈ nodes → n.name = name → m.name = name → n = m
  unkeyed : n ∈ nodes → n.name = name → n.key = (name, [])

section Alone
variable {name : String} {nodes old new : List Node} {n : Node}

theorem Alone.childOf_eq (alone : Alone name nodes) (member : n ∈ nodes) (named : n.name = name) :
    childOf nodes name = some n := by
  cases found : childOf nodes name with
  | none => exact absurd named (childOf_eq_none.mp found n member)
  | some m => rw [alone.once (childOf_mem found) member (childOf_name found) named]

theorem Alone.partner_eq (alone : Alone name nodes) (named : n.name = name) (unkeyed : n.key = (name, [])) :
    partner nodes n = childOf nodes name := by
  unfold partner
  cases found : childOf nodes name with
  | none =>
    rw [List.find?_eq_none]
    intro m member same
    refine childOf_eq_none.mp found m member ?_
    rw [← m.key_fst, of_decide_eq_true same, n.key_fst, named]
  | some m =>
    cases other : nodes.find? fun m => m.key = n.key with
    | none =>
      refine absurd ?_ (List.find?_eq_none.mp other m (childOf_mem found))
      simp [alone.unkeyed (childOf_mem found) (childOf_name found), unkeyed]
    | some k =>
      have key : k.key = n.key := by simpa using List.find?_some other
      have named' : k.name = name := by rw [← k.key_fst, key, n.key_fst, named]
      rw [alone.once (List.mem_of_find?_eq_some other) (childOf_mem found) named' (childOf_name found)]

/-- What a difference has in the place of two nodes that may be missing. -/
def diffOf : Option Node → Option Node → Option Node
  | none, none => none
  | some o, none => some (o.mark .delete)
  | none, some m => some (m.mark .create)
  | some o, some m => diffNode o m

/-- A node without siblings of its name, in a difference. -/
theorem childOf_diffSiblings (alone : Alone name old) (alone' : Alone name new) :
    childOf (diffSiblings old new) name = diffOf (childOf old name) (childOf new name) := by
  -- Whatever has the name in the difference is what `diffOf` says, and that is there.
  have only {n : Node} (member : n ∈ diffSiblings old new) (named : n.name = name) :
      diffOf (childOf old name) (childOf new name) = some n := by
    rcases (mem_diffSiblings old new).mp member with ⟨o, listed, ⟨gone, rfl⟩ | ⟨m, found, differs⟩⟩ | ⟨m, listed, new', rfl⟩
    · rw [Node.name_mark] at named
      rw [alone'.partner_eq named (alone.unkeyed listed named)] at gone
      rw [alone.childOf_eq listed named, gone, diffOf]
    · rw [diffNode_name differs] at named
      rw [alone'.partner_eq named (alone.unkeyed listed named)] at found
      rw [alone.childOf_eq listed named, found, diffOf, differs]
    · rw [Node.name_mark] at named
      rw [alone.partner_eq named (alone'.unkeyed listed named)] at new'
      rw [alone'.childOf_eq listed named, new', diffOf]
  have there {n : Node} (found : diffOf (childOf old name) (childOf new name) = some n) :
      n ∈ diffSiblings old new ∧ n.name = name := by
    rw [mem_diffSiblings]
    cases was : childOf old name with
    | none =>
      cases is : childOf new name with
      | none => simp [was, is, diffOf] at found
      | some m =>
        have named := childOf_name is
        obtain rfl : m.mark .create = n := by simpa [was, is, diffOf] using found
        refine ⟨.inr ⟨m, childOf_mem is, ?_, rfl⟩, by simpa using named⟩
        rw [alone.partner_eq named (alone'.unkeyed (childOf_mem is) named), was]
    | some o =>
      have named := childOf_name was
      have key := alone.unkeyed (childOf_mem was) named
      cases is : childOf new name with
      | none =>
        obtain rfl : o.mark .delete = n := by simpa [was, is, diffOf] using found
        refine ⟨.inl ⟨o, childOf_mem was, .inl ⟨?_, rfl⟩⟩, by simpa using named⟩
        rw [alone'.partner_eq named key, is]
      | some m =>
        have differs : diffNode o m = some n := by simpa [was, is, diffOf] using found
        refine ⟨.inl ⟨o, childOf_mem was, .inr ⟨m, ?_, differs⟩⟩, (diffNode_name differs).trans named⟩
        rw [alone'.partner_eq named key, is]
  cases found : childOf (diffSiblings old new) name with
  | some n => exact (only (childOf_mem found) (childOf_name found)).symm
  | none =>
    cases expected : diffOf (childOf old name) (childOf new name) with
    | none => rfl
    | some n => exact absurd (there expected).2 (childOf_eq_none.mp found n (there expected).1)

end Alone

/-- The node at the end of a path of names. -/
def find (nodes : List Node) : List String → Option Node
  | [] => none
  | [name] => childOf nodes name
  | name :: more => (childOf nodes name).bind fun n => find n.children more

theorem find_nil (path : List String) : find [] path = none := by
  match path with
  | [] => rfl
  | [_] => rfl
  | _ :: _ :: _ => rfl

theorem find_cons (nodes : List Node) (name : String) (nonempty : more ≠ []) :
    find nodes (name :: more) = (childOf nodes name).bind fun n => find n.children more := by
  cases more with
  | nil => exact absurd rfl nonempty
  | cons _ _ => rfl

/-- A path of containers to a node. None of them has siblings of its name. -/
def AlonePath (nodes : List Node) : List String → Prop
  | [] => True
  | name :: more => Alone name nodes ∧ (more ≠ [] → ∀ n, childOf nodes name = some n →
      (∃ data children, n = .inner name [] data children) ∧ AlonePath n.children more)

theorem diffNode_inner_eq_none : diffNode (.inner name keys data children) new = none ↔
    diffSiblings children new.children = [] := by
  rw [diffNode_inner]
  cases diffSiblings children new.children with
  | nil => simp
  | cons n rest => simp

theorem diffNode_inner_eq_some : diffNode (.inner name keys data children) new = some n ↔
    diffSiblings children new.children ≠ [] ∧ n = .inner name keys ⟨some .none, none, none⟩
      (keyLeaves keys children ++ diffSiblings children new.children) := by
  rw [diffNode_inner]
  cases diffSiblings children new.children with
  | nil => simp
  | cons m rest => simp [eq_comm]

theorem keyLeaves_nil (children : List Node) : keyLeaves [] children = [] := by simp [keyLeaves]

/-- Below a container, a difference is the difference of what is below it. -/
theorem find_diffNode (name : String) (data : Meta) (children : List Node) (new : Node) (path : List String) :
    ((diffNode (.inner name [] data children) new).bind fun n => find n.children path) =
      find (diffSiblings children new.children) path := by
  rw [diffNode_inner]
  cases changes : diffSiblings children new.children with
  | nil => exact (find_nil path).symm
  | cons n rest => simp [keyLeaves_nil, Node.children]

/-- A path leads to a node of the difference if what it leads to has changed. -/
theorem find_diffSiblings (path : List String) (alone : AlonePath old path) (alone' : AlonePath new path) :
    (find (diffSiblings old new) path).isSome = (diffOf (find old path) (find new path)).isSome := by
  induction path generalizing old new with
  | nil => rfl
  | cons name more ih =>
    by_cases last : more = []
    · subst last
      exact congrArg Option.isSome (childOf_diffSiblings alone.1 alone'.1)
    · rw [find_cons _ _ last, find_cons _ _ last, find_cons _ _ last, childOf_diffSiblings alone.1 alone'.1]
      cases was : childOf old name with
      | none =>
        cases is : childOf new name with
        | none => rfl
        | some m =>
          simp only [diffOf, Option.bind_some, Option.bind_none, Node.children_mark]
          cases find m.children more <;> rfl
      | some o =>
        cases is : childOf new name with
        | none =>
          simp only [diffOf, Option.bind_some, Option.bind_none, Node.children_mark]
          cases find o.children more <;> rfl
        | some m =>
          obtain ⟨⟨data, children, rfl⟩, below⟩ := alone.2 last o was
          obtain ⟨_, below'⟩ := alone'.2 last m is
          simp only [diffOf, Option.bind_some, find_diffNode]
          exact ih below below'

/-- What became of the old siblings, one after the other. -/
theorem diffChildren_eq_flatMap (old new : List Node) :
    diffChildren old new = old.flatMap fun o =>
      match partner new o with
      | none => [o.mark .delete]
      | some m => (diffNode o m).toList := by
  induction old with
  | nil => rfl
  | cons o rest ih => exact congrArg (_ ++ ·) ih

/-- The nodes of one name in a difference. -/
theorem filter_diffSiblings (name : String) (old new : List Node) :
    (diffSiblings old new).filter (fun n => n.name = name) =
      diffSiblings (old.filter fun n => n.name = name) (new.filter fun n => n.name = name) := by
  have partner_filter {nodes : List Node} {n : Node} (named : n.name = name) :
      partner (nodes.filter fun m => m.name = name) n = partner nodes n := by
    simp only [partner, List.find?_filter]
    congr 1
    funext m
    by_cases same : m.key = n.key
    · simp [same, ← m.key_fst, n.key_fst, named]
    · simp [same]
  have changed : (diffChildren old new).filter (fun n => n.name = name) =
      diffChildren (old.filter fun n => n.name = name) (new.filter fun n => n.name = name) := by
    induction old with
    | nil => rfl
    | cons o rest ih =>
      rw [diffChildren, List.filter_append, ih]
      by_cases named : o.name = name
      · rw [List.filter_cons_of_pos (by simpa using named), diffChildren, partner_filter named]
        congr 1
        refine List.filter_eq_self.mpr fun n member => ?_
        split at member
        · obtain rfl := List.mem_singleton.mp member
          simpa using named
        · rw [Option.mem_toList] at member
          simpa [diffNode_name member] using named
      · rw [List.filter_cons_of_neg (by simpa using named), List.append_left_eq_self, List.filter_eq_nil_iff]
        intro n member
        split at member
        · obtain rfl := List.mem_singleton.mp member
          simpa using named
        · rw [Option.mem_toList] at member
          simpa [diffNode_name member] using named
  rw [diffSiblings, diffSiblings, List.filter_append, changed, List.filter_map, List.filter_filter, List.filter_filter]
  congr 2
  refine List.filter_congr fun n _ => ?_
  by_cases named : n.name = name
  · simp [named, partner_filter named]
  · simp [named]

theorem childOf_keyLeaves (keys : List String) (children : List Node) (name : String) :
    childOf (keyLeaves keys children) name = if name ∈ keys then childOf children name else none := by
  split
  · rename_i key
    rw [childOf, keyLeaves, List.find?_filter, childOf]
    congr 1
    funext n
    by_cases named : n.name = name
    · simp [named, key]
    · simp [named]
  · rename_i other
    rw [childOf_eq_none]
    rintro n member rfl
    simp [keyLeaves, other] at member

end Yang
