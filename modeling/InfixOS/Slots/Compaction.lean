import Mathlib.Data.List.Basic

/-! Tables of a fixed length whose entries are in use or free, and the index loop
that moves the entries in use to the front. Entry by entry it looks for a free one
and fetches the next entry in use into it. -/
namespace Slots

variable {α : Type} (free : α → Bool) (clear : α → α)

/-- The entries in use, in order. -/
def used (table : List α) : List α := table.filter fun a => !free a

/-- The entries in use are `live`, and they come first. -/
structure Packed (live table : List α) : Prop where
  inUse : ∀ a ∈ live, free a = false
  split : ∃ pad, table = live ++ pad ∧ ∀ a ∈ pad, free a = true

/-- The first entry in use from `i` on, or the length of the table. -/
def nextUsed (table : List α) (i : Nat) : Nat := i + (table.drop i).findIdx fun a => !free a

/-- Entry `j` is moved to `i`, when there is an entry `j`. -/
def fetch (table : List α) (i j : Nat) : List α :=
  match table[j]? with
  | some a => (table.set i a).set j (clear a)
  | none => table

/-- The loop from `i` on, for `n` more entries. It stops when the last entry was fetched,
or none was left to fetch. -/
def compactFrom (table : List α) : Nat → Nat → List α
  | 0, _ => table
  | n + 1, i =>
    match table[i]? with
    | none => table
    | some a =>
      if free a then
        let j := nextUsed free table (i + 1)
        if table.length - 1 ≤ j then fetch clear table i j
        else compactFrom (fetch clear table i j) n (i + 1)
      else compactFrom table n (i + 1)

def compact (table : List α) : List α := compactFrom free clear table table.length 0

variable {free clear}

theorem used_append (first second : List α) :
    used free (first ++ second) = used free first ++ used free second := List.filter_append ..

theorem used_of_inUse {live : List α} (inUse : ∀ a ∈ live, free a = false) : used free live = live :=
  List.filter_eq_self.mpr fun a member => by simp [inUse a member]

theorem used_of_free {pad : List α} (unused : ∀ a ∈ pad, free a = true) : used free pad = [] :=
  List.filter_eq_nil_iff.mpr fun a member => by simp [unused a member]

theorem Packed.used_eq {live table : List α} (packed : Packed free live table) :
    used free table = live := by
  obtain ⟨pad, rfl, unused⟩ := packed.split
  rw [used_append, used_of_inUse packed.inUse, used_of_free unused, List.append_nil]

/-- What the search finds behind the entries before `i`. -/
theorem nextUsed_cases (free : α → Bool) (before rest : List α) :
    ((∀ a ∈ rest, free a = true) ∧
      nextUsed free (before ++ rest) before.length = (before ++ rest).length) ∨
    ∃ gap a tail, rest = gap ++ a :: tail ∧ (∀ b ∈ gap, free b = true) ∧ free a = false ∧
      nextUsed free (before ++ rest) before.length = before.length + gap.length := by
  unfold nextUsed
  rw [List.drop_left]
  induction rest with
  | nil => exact .inl ⟨by simp, by simp⟩
  | cons a rest ih =>
    cases taken : free a with
    | false => exact .inr ⟨[], a, rest, rfl, by simp, taken, by simp [List.findIdx_cons, taken]⟩
    | true =>
      rw [List.findIdx_cons, taken]
      rcases ih with ⟨unused, found⟩ | ⟨gap, b, tail, rfl, unused, inUse, found⟩
      · refine .inl ⟨List.forall_mem_cons.mpr ⟨taken, unused⟩, ?_⟩
        simp only [List.length_append, List.length_cons, Bool.not_true, cond_false] at found ⊢
        omega
      · refine .inr ⟨a :: gap, b, tail, rfl, List.forall_mem_cons.mpr ⟨taken, unused⟩, inUse, ?_⟩
        simp only [List.length_cons, Bool.not_true, cond_false]
        omega

theorem fetch_eq (before gap tail : List α) (hole a : α) :
    fetch clear (before ++ hole :: (gap ++ a :: tail)) before.length (before.length + 1 + gap.length) =
      before ++ a :: (gap ++ clear a :: tail) := by
  have found : (before ++ hole :: (gap ++ a :: tail))[before.length + 1 + gap.length]? = some a := by
    rw [List.getElem?_append_right (by omega)]
    simp [show before.length + 1 + gap.length - before.length = gap.length + 1 by omega]
  unfold fetch
  rw [found]
  simp [List.set_append, show before.length + 1 + gap.length - before.length = gap.length + 1 by omega,
    show ¬ before.length + 1 + gap.length < before.length by omega]

theorem fetch_end (table : List α) (i : Nat) : fetch clear table i table.length = table := by
  simp [fetch]

/-- The loop behind entries that are all in use: `n` is at least what is left of the table. -/
theorem compactFrom_packed (clears : ∀ a, free (clear a) = true) (n : Nat) :
    ∀ before rest : List α, (∀ a ∈ before, free a = false) → rest.length ≤ n →
      Packed free (before ++ used free rest)
        (compactFrom free clear (before ++ rest) n before.length) := by
  induction n with
  | zero =>
    intro before rest inUse short
    have none : rest = [] := List.eq_nil_of_length_eq_zero (Nat.le_zero.mp short)
    subst rest
    refine ⟨by simpa [used] using inUse, [], by simp [compactFrom, used], by simp⟩
  | succ n ih =>
    intro before rest inUse short
    cases rest with
    | nil => exact ⟨by simpa [used] using inUse, [], by simp [compactFrom, used], by simp⟩
    | cons hole rest =>
      have here : (before ++ hole :: rest)[before.length]? = some hole := by simp
      have extended : before ++ hole :: rest = (before ++ [hole]) ++ rest := by simp
      have later : before.length + 1 = (before ++ [hole]).length := by simp
      simp only [List.length_cons, Nat.add_le_add_iff_right] at short
      simp only [compactFrom, here]
      cases taken : free hole with
      | false =>
        have next := ih (before ++ [hole]) rest
          (by simpa [or_imp, forall_and, taken] using inUse) short
        simpa [used, taken] using next
      | true =>
        have drops : used free (hole :: rest) = used free rest := by simp [used, taken]
        rw [drops]
        simp only [if_true]
        rcases nextUsed_cases free (before ++ [hole]) rest with
          ⟨unused, found⟩ | ⟨gap, a, tail, rfl, unused, taken', found⟩
        · -- nothing in use is left, so the loop stops here
          rw [← extended, ← later] at found
          rw [found, if_pos (Nat.sub_le _ _), fetch_end, used_of_free unused, List.append_nil]
          exact ⟨inUse, hole :: rest, rfl, List.forall_mem_cons.mpr ⟨taken, unused⟩⟩
        · rw [← extended, ← later] at found
          have kept : used free (gap ++ a :: tail) = a :: used free tail := by
            rw [used_append, used_of_free unused]
            simp [used, taken']
          rw [found, fetch_eq, kept]
          have grown : ∀ b ∈ before ++ [a], free b = false := by
            simpa [or_imp, forall_and, taken'] using inUse
          split
          case isTrue last =>
            -- the entry fetched was the last one of the table
            have none : tail = [] := by
              simp only [List.length_append, List.length_cons] at last
              exact List.eq_nil_of_length_eq_zero (by omega)
            subst tail
            refine ⟨by simpa [used] using grown, gap ++ [clear a], by simp [used], ?_⟩
            simpa [or_imp, forall_and, clears] using unused
          case isFalse =>
            have next := ih (before ++ [a]) (gap ++ clear a :: tail) grown (by simpa using short)
            have same : used free (gap ++ clear a :: tail) = used free tail := by
              rw [used_append, used_of_free unused]
              simp [used, clears]
            rw [same] at next
            simpa using next

/-- The entries in use move to the front in their order. -/
theorem compact_packed (clears : ∀ a, free (clear a) = true) (table : List α) :
    Packed free (used free table) (compact free clear table) :=
  compactFrom_packed clears table.length [] table (by simp) (Nat.le_refl _)

theorem fetch_length (table : List α) (i j : Nat) : (fetch clear table i j).length = table.length := by
  unfold fetch
  split <;> simp

theorem compactFrom_length (n : Nat) :
    ∀ (table : List α) (i : Nat), (compactFrom free clear table n i).length = table.length := by
  induction n with
  | zero => exact fun _ _ => rfl
  | succ n ih =>
    intro table i
    unfold compactFrom
    split
    · rfl
    · split
      · dsimp only
        split
        · exact fetch_length ..
        · exact (ih _ _).trans (fetch_length ..)
      · exact ih _ _

theorem compact_length (table : List α) : (compact free clear table).length = table.length :=
  compactFrom_length _ _ _

/-- A table of one entry has no gap. -/
theorem packed_of_length_le_one {table : List α} (short : table.length ≤ 1) :
    Packed free (used free table) table := by
  refine ⟨by simp [used], ?_⟩
  match table, short with
  | [], _ => exact ⟨[], rfl, by simp⟩
  | [a], _ =>
    cases taken : free a with
    | false => exact ⟨[], by simp [used, taken], by simp⟩
    | true => exact ⟨[a], by simp [used, taken], by simp [taken]⟩

end Slots
