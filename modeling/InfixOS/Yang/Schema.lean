import InfixOS.Yang.Lookup
import Mathlib.Data.List.Nodup

/-! Data trees that conform to a schema. A schema names the nodes that matter to a
program and says what is below them; it may leave room for others. -/
namespace Yang

/-- What can stand under a name: nothing, a leaf with its type and default, or a
container or list entry with its keys. Of the nodes below, some are required; if it
is `closed` there are none but those of `sub`, and if `sorted` they come in its order. -/
inductive Schema where
  | never
  | leaf (type : String → Bool) (preset : Option String)
  | inner (keys required : List String) (closed sorted : Bool) (sub : List (String × Schema))

/-- The children of a node are complete and tell themselves apart. -/
def fits (required : List String) (closed sorted : Bool) (sub : List (String × Schema)) (children : List Node) :
    Bool :=
  required.all (fun name => (childOf children name).isSome) && decide (children.map Node.key).Nodup &&
    (!closed || children.all fun n => (sub.lookup n.name).isSome) &&
    (!sorted || (children.filterMap fun n => sub.findIdx? fun entry => entry.1 = n.name).Pairwise (· ≤ ·))

mutual

/-- A data node, which carries no metadata. -/
def Node.conforms : Node → Schema → Bool
  | .leaf _ value isDefault data, .leaf type preset =>
    type value && (!isDefault || preset = some value) && data = .plain
  | .inner _ keys data children, .inner keys' required closed sorted sub =>
    keys = keys' && data = .plain && fits required closed sorted sub children && conformsAll children sub
  | _, _ => false

def conformsAll : List Node → List (String × Schema) → Bool
  | [], _ => true
  | n :: rest, sub =>
    (match sub.lookup n.name with
      | some schema => n.conforms schema
      | none => true) && conformsAll rest sub

end

theorem conformsAll_iff : conformsAll nodes sub = true ↔
    ∀ n ∈ nodes, ∀ schema, sub.lookup n.name = some schema → n.conforms schema = true := by
  induction nodes with
  | nil => simp [conformsAll]
  | cons n rest ih =>
    rw [conformsAll, Bool.and_eq_true, ih, List.forall_mem_cons]
    refine and_congr_left fun _ => ?_
    cases found : sub.lookup n.name with
    | none => simp
    | some schema => simp

/-- The children of an inner node that conforms. -/
structure Body (required : List String) (closed sorted : Bool) (sub : List (String × Schema))
    (children : List Node) : Prop where
  present : name ∈ required → (childOf children name).isSome
  distinct : (children.map Node.key).Nodup
  known : closed = true → n ∈ children → (sub.lookup n.name).isSome
  order : sorted = true → (children.filterMap fun n => sub.findIdx? fun entry => entry.1 = n.name).Pairwise (· ≤ ·)
  each : n ∈ children → sub.lookup n.name = some schema → n.conforms schema = true

theorem fits_iff : (fits required closed sorted sub children && conformsAll children sub) = true ↔
    Body required closed sorted sub children := by
  rw [Bool.and_eq_true, conformsAll_iff, fits]
  simp only [Bool.and_eq_true, Bool.or_eq_true, List.all_eq_true, decide_eq_true_eq, Bool.not_eq_true',
    Bool.eq_false_iff, ne_eq, or_iff_not_imp_left, not_not]
  constructor
  · rintro ⟨⟨⟨⟨present, distinct⟩, known⟩, order⟩, each⟩
    exact ⟨fun member => present _ member, distinct, fun yes member => known yes _ member, order,
      fun member => each _ member _⟩
  · rintro ⟨present, distinct, known, order, each⟩
    exact ⟨⟨⟨⟨fun _ => present, distinct⟩, fun yes _ => known yes⟩, order⟩, fun _ member _ => each member⟩

instance : Decidable (Body required closed sorted sub children) := decidable_of_iff _ fits_iff

theorem conforms_inner : Node.conforms n (.inner keys required closed sorted sub) = true ↔
    ∃ name children, n = .inner name keys .plain children ∧ Body required closed sorted sub children := by
  cases n with
  | leaf name value isDefault data => simp [Node.conforms]
  | item name value data => simp [Node.conforms]
  | inner name keys' data children =>
    rw [Node.conforms, Bool.and_assoc, Bool.and_eq_true, fits_iff, Bool.and_eq_true, decide_eq_true_eq,
      decide_eq_true_eq]
    constructor
    · rintro ⟨⟨rfl, rfl⟩, body⟩
      exact ⟨name, children, rfl, body⟩
    · rintro ⟨_, _, same, body⟩
      cases same
      exact ⟨⟨rfl, rfl⟩, body⟩

theorem conforms_leaf : Node.conforms n (.leaf type preset) = true ↔
    ∃ name value isDefault, n = .leaf name value isDefault .plain ∧ type value = true ∧
      (isDefault = true → preset = some value) := by
  cases n with
  | leaf name value isDefault data =>
    simp only [Node.conforms, Bool.and_eq_true, Bool.or_eq_true, Bool.not_eq_true', decide_eq_true_eq]
    constructor
    · rintro ⟨⟨fine, flag⟩, rfl⟩
      exact ⟨name, value, isDefault, rfl, fine, fun yes => flag.resolve_left (by simp [yes])⟩
    · rintro ⟨_, _, _, same, fine, flag⟩
      cases same
      refine ⟨⟨fine, ?_⟩, rfl⟩
      cases isDefault with
      | true => exact .inr (flag rfl)
      | false => exact .inl rfl
  | item name value data => simp [Node.conforms]
  | inner name keys data children => simp [Node.conforms]

theorem conforms_never : Node.conforms n .never = false := by cases n <;> rfl

/-- There is at most one node of such a name. -/
def Schema.single : Schema → Bool
  | .inner keys _ _ _ _ => keys.isEmpty
  | _ => true

section Body
variable {required : List String} {closed sorted : Bool} {sub : List (String × Schema)} {children : List Node}
  {name : String} {schema : Schema} {n : Node}

theorem Body.alone (body : Body required closed sorted sub children) (entry : sub.lookup name = some schema)
    (single : schema.single = true) : Alone name children := by
  have unkeyed {n : Node} (member : n ∈ children) (named : n.name = name) : n.key = (name, []) := by
    have fine := body.each member (named ▸ entry)
    cases schema with
    | never => simp [conforms_never] at fine
    | leaf type preset =>
      obtain ⟨_, _, _, rfl, _⟩ := conforms_leaf.mp fine
      exact congrArg (·, []) named
    | inner keys required closed sorted sub =>
      obtain rfl : keys = [] := by simpa [Schema.single] using single
      obtain ⟨_, _, rfl, _⟩ := conforms_inner.mp fine
      exact congrArg (·, []) named
  refine ⟨fun one two named named' => ?_, unkeyed⟩
  exact List.inj_on_of_nodup_map body.distinct one two ((unkeyed one named).trans (unkeyed two named').symm)

theorem Body.child (body : Body required closed sorted sub children) (entry : sub.lookup name = some schema)
    (found : childOf children name = some n) : n.conforms schema = true :=
  body.each (childOf_mem found) (childOf_name found ▸ entry)

theorem Body.child_leaf (body : Body required closed sorted sub children) (entry : sub.lookup name = some (.leaf type preset))
    (found : childOf children name = some n) :
    ∃ value isDefault, n = .leaf name value isDefault .plain ∧ type value = true ∧
      (isDefault = true → preset = some value) := by
  obtain ⟨name', value, isDefault, rfl, fine⟩ := conforms_leaf.mp (body.child entry found)
  obtain rfl := childOf_name found
  exact ⟨value, isDefault, rfl, fine⟩

theorem Body.required_leaf (body : Body required closed sorted sub children) (name : String)
    (entry : sub.lookup name = some (.leaf type preset)) (needed : name ∈ required) :
    ∃ value isDefault, childOf children name = some (.leaf name value isDefault .plain) ∧ type value = true ∧
      (isDefault = true → preset = some value) := by
  obtain ⟨n, found⟩ := Option.isSome_iff_exists.mp (body.present needed)
  obtain ⟨value, isDefault, rfl, fine⟩ := body.child_leaf entry found
  exact ⟨value, isDefault, found, fine⟩

theorem Body.child_inner (body : Body required closed sorted sub children)
    (entry : sub.lookup name = some (.inner keys required' closed' sorted' sub')) (found : childOf children name = some n) :
    ∃ below, n = .inner name keys .plain below ∧ Body required' closed' sorted' sub' below := by
  obtain ⟨name', below, rfl, fine⟩ := conforms_inner.mp (body.child entry found)
  obtain rfl := childOf_name found
  exact ⟨below, rfl, fine⟩

theorem Body.never (body : Body required closed sorted sub children) (entry : sub.lookup name = some .never) :
    childOf children name = none := by
  cases found : childOf children name with
  | none => rfl
  | some n => simpa [conforms_never] using body.child entry found

end Body

/-- The schema at the end of a path of containers. -/
def schemaAt (sub : List (String × Schema)) : List String → Option Schema
  | [] => none
  | [name] => sub.lookup name
  | name :: more =>
    match sub.lookup name with
    | some (.inner [] _ _ _ below) => schemaAt below more
    | _ => none

/-- A path of containers can be followed in a difference, and what is at its end
conforms. -/
theorem Body.path {path : List String} (body : Body required closed sorted sub children)
    (entry : schemaAt sub path = some schema) (single : schema.single = true) :
    AlonePath children path ∧ ∀ n, find children path = some n → n.conforms schema = true := by
  induction path generalizing required closed sorted sub children with
  | nil => simp [schemaAt] at entry
  | cons name more ih =>
    by_cases last : more = []
    · subst last
      exact ⟨⟨body.alone entry single, fun other => absurd rfl other⟩, fun n found => body.child entry found⟩
    · have below : ∃ required closed sorted below, sub.lookup name = some (.inner [] required closed sorted below) ∧
          schemaAt below more = some schema := by
        cases more with
        | nil => exact absurd rfl last
        | cons next later =>
          rw [schemaAt] at entry
          split at entry
          · exact ⟨_, _, _, _, ‹_›, entry⟩
          · simp at entry
          · simp
      obtain ⟨_, _, _, _, here, later⟩ := below
      have down {n : Node} (found : childOf children name = some n) :
          (∃ data children, n = .inner name [] data children) ∧ AlonePath n.children more ∧
            ∀ n', find n.children more = some n' → n'.conforms schema = true := by
        obtain ⟨c, rfl, body'⟩ := body.child_inner here found
        exact ⟨⟨_, _, rfl⟩, ih body' later⟩
      refine ⟨⟨body.alone here rfl, fun _ n found => ⟨(down found).1, (down found).2.1⟩⟩, fun n found => ?_⟩
      rw [find_cons _ _ last] at found
      obtain ⟨c, first, found⟩ := Option.bind_eq_some_iff.mp found
      exact (down first).2.2 n found

section Differences
variable {required : List String} {closed sorted : Bool} {sub : List (String × Schema)} {old new : List Node} {name : String}

/-- A leaf without a default is in a difference if its value has changed. -/
theorem Body.leaf_diff (body : Body required closed sorted sub old) (body' : Body required closed sorted sub new)
    (entry : sub.lookup name = some (.leaf type none)) :
    (childOf (diffSiblings old new) name = none ↔ valueOf old name = valueOf new name) ∧
      (valueOf (diffSiblings old new) name = none ↔ valueOf old name = valueOf new name) := by
  rw [valueOf_eq, valueOf_eq, valueOf_eq, childOf_diffSiblings (body.alone entry rfl) (body'.alone entry rfl)]
  cases was : childOf old name with
  | none =>
    cases is : childOf new name with
    | none => simp [diffOf]
    | some m =>
      obtain ⟨value, flag, rfl, _⟩ := body'.child_leaf entry is
      simp [diffOf, Node.value, Node.mark]
  | some o =>
    obtain ⟨value, flag, rfl, _, unset⟩ := body.child_leaf entry was
    obtain rfl : flag = false := by simpa using unset
    cases is : childOf new name with
    | none => simp [diffOf, Node.value, Node.mark]
    | some m =>
      obtain ⟨value', flag', rfl, _, unset'⟩ := body'.child_leaf entry is
      obtain rfl : flag' = false := by simpa using unset'
      by_cases same : value = value'
      · simp [diffOf, diffNode, Node.value, Node.isDefault, same]
      · simp [diffOf, diffNode, Node.value, Node.isDefault, same]

/-- Two lists of known nodes differ in one of these. -/
theorem Body.diff_nil (body : Body required true sorted sub old) (body' : Body required true sorted sub new) :
    diffSiblings old new = [] ↔
      ∀ name, (sub.lookup name).isSome → childOf (diffSiblings old new) name = none := by
  constructor
  · intro same name _
    rw [same]
    rfl
  · intro none
    rw [List.eq_nil_iff_forall_not_mem]
    intro n member
    refine childOf_eq_none.mp (none n.name ?_) n member rfl
    rcases (mem_diffSiblings _ _).mp member with ⟨o, inside, ⟨_, rfl⟩ | ⟨m, _, differs⟩⟩ | ⟨m, inside, _, rfl⟩
    · rw [Node.name_mark]
      exact body.known rfl inside
    · rw [diffNode_name differs]
      exact body.known rfl inside
    · rw [Node.name_mark]
      exact body'.known rfl inside

end Differences

end Yang
