import InfixOS.Core.Lyx

/-! Which nodes a difference has, and how the entries of a list are read from it. -/
namespace Yang

namespace Node

@[simp] theorem name_mark (op : Operation) (n : Node) : (n.mark op).name = n.name := by cases n <;> rfl

@[simp] theorem children_mark (op : Operation) (n : Node) : (n.mark op).children = n.children := by cases n <;> rfl

@[simp] theorem operation_mark (op : Operation) (n : Node) : (n.mark op).data.operation = some op := by
  cases n <;> rfl

end Node

theorem mem_diffChildren {n : Node} (old new : List Node) : n ∈ diffChildren old new ↔
    ∃ o ∈ old, (partner new o = none ∧ n = o.mark .delete) ∨
      ∃ m, partner new o = some m ∧ diffNode o m = some n := by
  induction old with
  | nil => simp [diffChildren]
  | cons o rest ih =>
    rw [diffChildren, List.mem_append, ih, List.exists_mem_cons_iff]
    refine or_congr_left ?_
    cases partner new o with
    | none => simp
    | some m => simp

/-- A node of a difference stands for one that was deleted, changed or created. -/
theorem mem_diffSiblings {n : Node} (old new : List Node) : n ∈ diffSiblings old new ↔
    (∃ o ∈ old, (partner new o = none ∧ n = o.mark .delete) ∨
      ∃ m, partner new o = some m ∧ diffNode o m = some n) ∨
    ∃ m ∈ new, partner old m = none ∧ n = m.mark .create := by
  rw [diffSiblings, List.mem_append, mem_diffChildren]
  refine or_congr_right ?_
  simp only [List.mem_map, List.mem_filter, Option.isNone_iff_eq_none]
  constructor
  · rintro ⟨m, ⟨member, fresh⟩, rfl⟩
    exact ⟨m, member, fresh, rfl⟩
  · rintro ⟨m, member, fresh, rfl⟩
    exact ⟨m, ⟨member, fresh⟩, rfl⟩

/-- A container or list entry is in the difference with what changed below it. -/
theorem diffNode_inner (name : String) (keys : List String) (data : Meta) (children : List Node) (new : Node) :
    diffNode (.inner name keys data children) new =
      match diffSiblings children new.children with
      | [] => none
      | changes => some (.inner name keys ⟨some .none, none, none⟩ (keyLeaves keys children ++ changes)) := by
  rw [diffNode]
  rfl

/-- A leaf is in the difference if its value or its default flag has changed. -/
theorem diffNode_leaf_eq_none (name value : String) (isDefault : Bool) (data : Meta) (new : Node) :
    diffNode (.leaf name value isDefault data) new = none ↔ some value = new.value ∧ isDefault = new.isDefault := by
  rw [diffNode]
  split
  · rename_i other
    simp [other]
  · rename_i same
    split
    · rename_i other
      simp [other]
    · rename_i flag
      simpa using ⟨not_not.mp same, not_not.mp flag⟩

theorem diffNode_name (differs : diffNode old new = some n) : n.name = old.name := by
  cases old with
  | leaf name value isDefault data =>
    rw [diffNode] at differs
    split at differs
    · rw [← Option.some.inj differs]
      rfl
    · split at differs
      · rw [← Option.some.inj differs]
        rfl
      · simp at differs
  | item name value data => simp [diffNode] at differs
  | inner name keys data children =>
    rw [diffNode_inner] at differs
    split at differs
    · simp at differs
    · rw [← Option.some.inj differs]
      rfl

/-- A difference of single nodes of one key. -/
theorem diffSiblings_single (old new : Node) (same : new.key = old.key) :
    diffSiblings [old] [new] = (diffNode old new).toList := by
  simp [diffSiblings, diffChildren, partner, same]

end Yang

namespace Lyx
open Yang

theorem mem_entriesFrom {n : Node} {rest : List Node} : n :: rest ∈ entriesFrom name all → n ∈ all ∧ n.name = name := by
  intro member
  induction all with
  | nil => simp [entriesFrom] at member
  | cons m more ih =>
    rw [entriesFrom] at member
    split at member
    · rcases List.mem_cons.mp member with same | later
      · obtain ⟨rfl, rfl⟩ := List.cons.inj same
        exact ⟨List.mem_cons_self, ‹_›⟩
      · exact ⟨List.mem_cons_of_mem _ (ih later).1, (ih later).2⟩
    · exact ⟨List.mem_cons_of_mem _ (ih member).1, (ih member).2⟩

theorem entriesFrom_of_mem {n : Node} (member : n ∈ all) (named : n.name = name) :
    ∃ rest, n :: rest ∈ entriesFrom name all := by
  induction all with
  | nil => simp at member
  | cons m more ih =>
    rw [entriesFrom]
    rcases List.mem_cons.mp member with rfl | later
    · exact ⟨more, by simp [named]⟩
    · obtain ⟨rest, found⟩ := ih later
      refine ⟨rest, ?_⟩
      split
      · exact List.mem_cons_of_mem _ found
      · exact found

theorem mem_dropWhile_name {n : Node} {all : List Node} (named : n.name = name) :
    n ∈ all.dropWhile (fun m => m.name ≠ name) ↔ n ∈ all := by
  induction all with
  | nil => simp
  | cons m more ih =>
    by_cases here : m.name = name
    · simp [here]
    · rw [List.dropWhile_cons_of_pos (by simpa using here), ih, List.mem_cons]
      constructor
      · exact .inr
      · rintro (rfl | later)
        · exact absurd named here
        · exact later

section List
variable (top name : String) (keys : List String) (data : Meta) (nodes more : List Node) (outer : Option Operation)

/-- The list `name` in the container `top`. -/
theorem lydxGetDescendant_list :
    lydxGetDescendant ⟨.inner top keys data nodes :: more, outer⟩ [top, name] =
      ⟨nodes.dropWhile fun n => n.name ≠ name, data.operation.or outer⟩ := by
  have found : lydxGetSibling ⟨.inner top keys data nodes :: more, outer⟩ top =
      ⟨.inner top keys data nodes :: more, outer⟩ := by
    rw [lydxGetSibling, List.dropWhile_cons_of_neg (by simp [Node.name])]
  rw [lydxGetDescendant, lydxGetDescendant, found]
  · rfl
  · simp

theorem mem_lyxList (member : q ∈ lyxListForEach
      (lydxGetDescendant ⟨.inner top keys data nodes :: more, outer⟩ [top, name]) name) :
    ∃ n rest, q = ⟨n :: rest, data.operation.or outer⟩ ∧ n ∈ nodes ∧ n.name = name := by
  rw [lydxGetDescendant_list] at member
  obtain ⟨all, listed, rfl⟩ := List.mem_map.mp member
  obtain ⟨n, rest, rfl⟩ := List.exists_cons_of_ne_nil (entriesFrom_ne_nil listed)
  obtain ⟨inside, named⟩ := mem_entriesFrom listed
  exact ⟨n, rest, rfl, (mem_dropWhile_name named).mp inside, named⟩

theorem lyxList_of_mem {n : Node} (member : n ∈ nodes) (named : n.name = name) :
    ∃ rest, ⟨n :: rest, data.operation.or outer⟩ ∈
      lyxListForEach (lydxGetDescendant ⟨.inner top keys data nodes :: more, outer⟩ [top, name]) name := by
  rw [lydxGetDescendant_list]
  obtain ⟨rest, found⟩ := entriesFrom_of_mem ((mem_dropWhile_name named).mpr member) named
  exact ⟨rest, List.mem_map.mpr ⟨_, found, rfl⟩⟩

end List

end Lyx
