import Mathlib.Data.Finset.Basic
import Mathlib.Data.Finset.Union
import Mathlib.Data.List.Nodup

/-! Edits of a set that fail when an element is not as they expect it. The set is
to hold the elements of one list and then those of another. Elements are told
apart by a key that no list has twice, and what the set holds besides stays. -/
namespace Keyed

inductive Edit (α : Type) where
  | delete (a : α)
  | add (a : α)
  /-- Add the element unless it is there. -/
  | put (a : α)
  | clear
  deriving DecidableEq, Repr

variable {α κ : Type} [DecidableEq α] [DecidableEq κ]

def Edit.run (held : Finset α) : Edit α → Option (Finset α)
  | delete a => if a ∈ held then some (held.erase a) else none
  | add a => if a ∈ held then none else some (insert a held)
  | put a => some (insert a held)
  | clear => some ∅

def runAll (held : Finset α) : List (Edit α) → Option (Finset α)
  | [] => some held
  | edit :: rest => (edit.run held).bind fun after => runAll after rest

@[simp] theorem runAll_nil (held : Finset α) : runAll held [] = some held := rfl

@[simp] theorem runAll_cons (held : Finset α) (edit : Edit α) (rest : List (Edit α)) :
    runAll held (edit :: rest) = (edit.run held).bind fun after => runAll after rest := rfl

theorem runAll_append (held : Finset α) (first second : List (Edit α)) :
    runAll held (first ++ second) = (runAll held first).bind fun after => runAll after second := by
  induction first generalizing held with
  | nil => rfl
  | cons edit rest ih =>
    rw [List.cons_append, runAll_cons, runAll_cons]
    cases edit.run held with
    | none => rfl
    | some after => exact ih after

theorem runAll_append_eq_some {held after : Finset α} : runAll held (first ++ second) = some after ↔
    ∃ mid, runAll held first = some mid ∧ runAll mid second = some after := by
  rw [runAll_append, Option.bind_eq_some_iff]

/-- The edits that turn one element of the old list into its successor in `new`. -/
inductive Turned (key : α → κ) (new : List α) (a : α) : List (Edit α) → Prop
  | dropped (gone : ∀ b ∈ new, key b ≠ key a) : Turned key new a [.delete a]
  | kept (member : a ∈ new) : Turned key new a []
  | changed (member : b ∈ new) (same : key b = key a) : Turned key new a [.delete a, .add b]

/-- The elements of `new` whose key occurs in `old`. -/
def matched (key : α → κ) (old new : List α) : List α := new.filter fun b => key b ∈ old.map key

/-- The others. -/
def fresh (key : α → κ) (old new : List α) : List α := new.filter fun b => key b ∉ old.map key

theorem matched_union_fresh (key : α → κ) (old new : List α) :
    (matched key old new).toFinset ∪ (fresh key old new).toFinset = new.toFinset := by
  ext b
  simp only [matched, fresh, Finset.mem_union, List.mem_toFinset, List.mem_filter, decide_eq_true_eq]
  tauto

section Phases
variable {key : α → κ} {new : List α} {after : Finset α} {turns : List (α × List (Edit α))}
  {makes : List (α × Edit α)}

/-- The first element and its successor are in the place where it was. -/
theorem matched_cons (unique : (new.map key).Nodup) (member : b ∈ new) (same : key b = key a) :
    (matched key (a :: rest) new).toFinset = insert b (matched key rest new).toFinset := by
  ext c
  simp only [matched, Finset.mem_insert, List.mem_toFinset, List.mem_filter, List.map_cons, List.mem_cons,
    decide_eq_true_eq]
  constructor
  · rintro ⟨listed, here | later⟩
    · exact .inl (List.inj_on_of_nodup_map unique listed member (here.trans same.symm))
    · exact .inr ⟨listed, later⟩
  · rintro (rfl | ⟨listed, later⟩)
    · exact ⟨member, .inl same⟩
    · exact ⟨listed, .inr later⟩

omit [DecidableEq α] in
theorem matched_cons_dropped (gone : ∀ b ∈ new, key b ≠ key a) :
    matched key (a :: rest) new = matched key rest new := by
  refine List.filter_congr fun b listed => ?_
  simp [gone b listed]

/-- The elements of the old list one after the other. What has been dealt with is
in `done`, and only an element of `extra` can stand in the way of an addition. -/
theorem runAll_turns (done extra : Finset α) (unique : ((turns.map Prod.fst).map key).Nodup) (unique' : (new.map key).Nodup)
    (turned : ∀ t ∈ turns, Turned key new t.1 t.2) (apart : ∀ d ∈ done, key d ∉ (turns.map Prod.fst).map key)
    (outside : ∀ a ∈ turns.map Prod.fst, a ∉ extra) :
    runAll (done ∪ (turns.map Prod.fst).toFinset ∪ extra) (turns.flatMap Prod.snd) = some after ↔
      (∀ b, .add b ∈ turns.flatMap Prod.snd → b ∉ extra) ∧
        after = done ∪ (matched key (turns.map Prod.fst) new).toFinset ∪ extra := by
  induction turns generalizing done with
  | nil => simp [matched, eq_comm]
  | cons t later ih =>
    obtain ⟨a, first⟩ := t
    simp only [List.map_cons] at unique apart outside ⊢
    generalize olds : later.map Prod.fst = rest at *
    rw [List.nodup_cons] at unique
    have distinct : a ∉ rest := fun again => unique.1 (List.mem_map_of_mem again)
    have undone : a ∉ done := fun already => apart a already List.mem_cons_self
    have alien : a ∉ extra := outside a List.mem_cons_self
    have here : (done ∪ (a :: rest).toFinset ∪ extra).erase a = done ∪ rest.toFinset ∪ extra := by
      ext c
      simp only [Finset.mem_erase, Finset.mem_union, List.toFinset_cons, Finset.mem_insert, List.mem_toFinset]
      constructor
      · tauto
      · rintro ((d | r) | e)
        · exact ⟨fun same => undone (same ▸ d), .inl (.inl d)⟩
        · exact ⟨fun same => distinct (same ▸ r), .inl (.inr (.inr r))⟩
        · exact ⟨fun same => alien (same ▸ e), .inr e⟩
    have present : a ∈ done ∪ (a :: rest).toFinset ∪ extra := by simp
    have outside' := fun b member => outside b (List.mem_cons_of_mem _ member)
    have apart' : ∀ d ∈ done, key d ∉ rest.map key := fun d member again => apart d member (List.mem_cons_of_mem _ again)
    obtain ⟨step, others⟩ := List.forall_mem_cons.mp turned
    replace step : Turned key new a first := step
    rw [List.flatMap_cons]
    cases step with
    | dropped gone =>
      simp only [List.cons_append, List.nil_append, runAll_cons, Edit.run, present, if_true, Option.bind_some, here]
      rw [ih done unique.2 others apart' outside', matched_cons_dropped gone]
      simp
    | kept member =>
      have moved : done ∪ (a :: rest).toFinset = insert a done ∪ rest.toFinset := by
        ext c
        simp only [Finset.mem_union, List.toFinset_cons, Finset.mem_insert]
        tauto
      rw [List.nil_append, moved, ih _ unique.2 others _ outside', matched_cons unique' member rfl]
      · simp
      · intro d member'
        rcases Finset.mem_insert.mp member' with rfl | already
        · exact unique.1
        · exact apart' d already
    | changed member same =>
      rename_i b
      have free : b ∈ done ∪ rest.toFinset ∪ extra ↔ b ∈ extra := by
        simp only [Finset.mem_union, List.mem_toFinset, or_iff_right_iff_imp]
        rintro (d | r)
        · exact absurd (List.mem_cons.mpr (.inl same)) (apart b d)
        · exact absurd (same ▸ List.mem_map_of_mem r) unique.1
      simp only [List.cons_append, List.nil_append, runAll_cons, Edit.run, present, if_true, Option.bind_some, here, free]
      by_cases held : b ∈ extra
      · simp [held]
      · have moved : insert b (done ∪ rest.toFinset ∪ extra) = insert b done ∪ rest.toFinset ∪ extra := by
          simp [Finset.insert_union]
        rw [if_neg held, Option.bind_some, moved, ih _ unique.2 others _ outside', matched_cons unique' member same]
        · simp [held]
        · intro d member'
          rcases Finset.mem_insert.mp member' with rfl | already
          · exact same ▸ unique.1
          · exact apart' d already

/-- New elements one after the other. -/
theorem runAll_makes (done extra : Finset α) (unique : (makes.map Prod.fst).Nodup) (made : ∀ m ∈ makes, m.2 = .add m.1 ∨ m.2 = .put m.1)
    (apart : ∀ b ∈ makes.map Prod.fst, b ∉ done) :
    runAll (done ∪ extra) (makes.map Prod.snd) = some after ↔
      (∀ b, .add b ∈ makes.map Prod.snd → b ∉ extra) ∧ after = done ∪ (makes.map Prod.fst).toFinset ∪ extra := by
  induction makes generalizing done with
  | nil => simp [eq_comm]
  | cons m rest ih =>
    obtain ⟨b, edit⟩ := m
    simp only [List.map_cons, List.nodup_cons] at unique apart ⊢
    have absent : b ∉ done := apart b List.mem_cons_self
    have moved : insert b (done ∪ extra) = insert b done ∪ extra := by rw [Finset.insert_union]
    obtain ⟨step, made⟩ := List.forall_mem_cons.mp made
    have later := ih (insert b done) unique.2 made (by
      intro c member
      rw [Finset.mem_insert, not_or]
      exact ⟨fun same => unique.1 (same ▸ member), apart c (List.mem_cons_of_mem _ member)⟩)
    have union : insert b done ∪ (rest.map Prod.fst).toFinset = done ∪ (b :: rest.map Prod.fst).toFinset := by
      ext c
      simp only [Finset.mem_union, List.toFinset_cons, Finset.mem_insert]
      tauto
    rw [union] at later
    replace step : edit = .add b ∨ edit = .put b := step
    rcases step with rfl | rfl
    · simp only [runAll_cons, Edit.run, Finset.mem_union, absent, false_or]
      by_cases held : b ∈ extra
      · simp [held]
      · rw [if_neg held, Option.bind_some, moved, later]
        simp [held]
    · simp only [runAll_cons, Edit.run, Option.bind_some, moved, later]
      simp

end Phases

/-- Edits that bring a set from the elements of `old` to those of `new`: a few for
each old element, then one for each element with a new key. -/
structure Patch (key : α → κ) (old new : List α) (turns : List (α × List (Edit α)))
    (makes : List (α × Edit α)) : Prop where
  olds : turns.map Prod.fst = old
  news : makes.map Prod.fst = fresh key old new
  turned : ∀ t ∈ turns, Turned key new t.1 t.2
  made : ∀ m ∈ makes, m.2 = .add m.1 ∨ m.2 = .put m.1

def patchEdits (turns : List (α × List (Edit α))) (makes : List (α × Edit α)) : List (Edit α) :=
  turns.flatMap Prod.snd ++ makes.map Prod.snd

omit [DecidableEq α] in
/-- An addition is a new element with an old key, or was made to be one. -/
theorem Patch.add_mem_iff {key : α → κ} {old new : List α} (patch : Patch key old new turns makes)
    (unique' : (new.map key).Nodup) (absent : b ∉ old) (put : ∀ m ∈ makes, m.2 ≠ .add b) :
    .add b ∈ patchEdits turns makes ↔ b ∈ new ∧ key b ∈ old.map key := by
  have made : .add b ∉ makes.map Prod.snd := by
    rintro listed
    obtain ⟨m, member, same⟩ := List.mem_map.mp listed
    exact put m member same
  rw [patchEdits, List.mem_append, or_iff_left made, List.mem_flatMap]
  constructor
  · rintro ⟨⟨a, edits⟩, member, listed⟩
    have old : a ∈ old := patch.olds ▸ List.mem_map_of_mem member
    have turned : Turned key new a edits := patch.turned _ member
    replace listed : .add b ∈ edits := listed
    cases turned with
    | dropped gone => simp at listed
    | kept again => simp at listed
    | changed again same =>
      obtain rfl : b = _ := by simpa using listed
      exact ⟨again, same ▸ List.mem_map_of_mem old⟩
  · rintro ⟨member, listed⟩
    obtain ⟨a, old, same⟩ := List.mem_map.mp listed
    rw [← patch.olds] at old
    obtain ⟨⟨a, edits⟩, inside, rfl⟩ := List.mem_map.mp old
    refine ⟨_, inside, ?_⟩
    have turned : Turned key new a edits := patch.turned _ inside
    show .add b ∈ edits
    cases turned with
    | dropped gone => exact absurd same.symm (gone b member)
    | kept again =>
      refine absurd ?_ absent
      rw [List.inj_on_of_nodup_map unique' member again same.symm, ← patch.olds]
      exact List.mem_map_of_mem inside
    | changed again same' =>
      rw [List.inj_on_of_nodup_map unique' member again (same.symm.trans same'.symm)]
      simp

/-- A patch goes through exactly if nothing it adds was in the set besides the
old elements, and the new elements take the place of the old ones. -/
theorem Patch.run_iff {key : α → κ} {old new : List α} {held after : Finset α}
    (patch : Patch key old new turns makes) (unique : (old.map key).Nodup) (unique' : (new.map key).Nodup)
    (within : ∀ a ∈ old, a ∈ held) :
    runAll held (patchEdits turns makes) = some after ↔
      (∀ b, .add b ∈ patchEdits turns makes → b ∈ held → b ∈ old) ∧
        after = new.toFinset ∪ held \ old.toFinset := by
  obtain ⟨olds, fresh, turned, made⟩ := patch
  have start : held = ∅ ∪ old.toFinset ∪ held \ old.toFinset := by
    rw [Finset.empty_union, Finset.union_sdiff_of_subset fun a member => within a (List.mem_toFinset.mp member)]
  have apart : ∀ b ∈ makes.map Prod.fst, b ∉ (matched key old new).toFinset := by
    intro b listed again
    rw [fresh] at listed
    exact (of_decide_eq_true (List.mem_filter.mp listed).2) (of_decide_eq_true
      (List.mem_filter.mp (List.mem_toFinset.mp again)).2)
  have turns' (mid : Finset α) : _ = some mid ↔ _ := runAll_turns ∅ (held \ old.toFinset) (olds ▸ unique) unique'
    turned (by simp) (by simp +contextual [olds])
  have created : _ = some after ↔ _ := runAll_makes (matched key old new).toFinset (held \ old.toFinset)
    (fresh ▸ unique'.of_map.filter _) made apart
  have free (b : α) : b ∉ held \ old.toFinset ↔ (b ∈ held → b ∈ old) := by simp
  rw [fresh, matched_union_fresh] at created
  rw [olds, ← start, Finset.empty_union] at turns'
  simp only [patchEdits, runAll_append_eq_some, turns', and_assoc, exists_eq_left, exists_and_left, created, free,
    List.mem_append, or_imp, forall_and]

end Keyed
