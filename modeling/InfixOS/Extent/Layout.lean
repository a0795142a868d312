import Mathlib.Data.List.Pairwise
import Mathlib.Data.List.Sort

/-! Extents, half-open ranges of numbers, and lists of things that each occupy
one. A list is laid out when it is sorted by where the extents start and no two
of them meet. `Reach` is the length of the longest prefix of a range on which a
property holds. -/
structure Extent where
  first : Nat
  count : Nat
deriving DecidableEq

namespace Extent

def stop (e : Extent) : Nat := e.first + e.count

def Holds (e : Extent) (n : Nat) : Prop := e.first ≤ n ∧ n < e.stop

instance (e : Extent) (n : Nat) : Decidable (e.Holds n) := inferInstanceAs (Decidable (_ ∧ _))

def Meets (e f : Extent) : Prop := ∃ n, e.Holds n ∧ f.Holds n

theorem Meets.symm {e f : Extent} (meets : e.Meets f) : f.Meets e := by
  obtain ⟨n, left, right⟩ := meets
  exact ⟨n, right, left⟩

/-- Extents that meet have an end point of one in the other. The four tests find
every overlap, nesting either way included. -/
theorem meets_iff_ends {e f : Extent} (some₁ : 0 < e.count) (some₂ : 0 < f.count) :
    e.Meets f ↔
      f.Holds e.first ∨ f.Holds (e.stop - 1) ∨ e.Holds f.first ∨ e.Holds (f.stop - 1) := by
  simp only [Meets, Holds, stop]
  constructor
  · rintro ⟨n, ⟨low₁, high₁⟩, low₂, high₂⟩
    omega
  · rintro (inside | inside | inside | inside)
    · exact ⟨e.first, by omega, inside⟩
    · exact ⟨e.first + e.count - 1, by omega, inside⟩
    · exact ⟨f.first, inside, by omega⟩
    · exact ⟨f.first + f.count - 1, inside, by omega⟩

theorem not_meets_of_stop_le {e f : Extent} (before : e.stop ≤ f.first) : ¬e.Meets f := by
  rintro ⟨n, low, high⟩
  have := low.2
  have := high.1
  omega

section Lists
variable {α : Type} (extent : α → Extent)

/-- Each ends before the next one starts. -/
def Stacked (xs : List α) : Prop := xs.Pairwise fun x y => (extent x).stop ≤ (extent y).first

/-- Sorted, and nothing is in two of them. -/
structure Layout (xs : List α) : Prop where
  sorted : xs.Pairwise fun x y => (extent x).first ≤ (extent y).first
  apart : xs.Pairwise fun x y => ¬(extent x).Meets (extent y)

def Covered (xs : List α) (n : Nat) : Prop := ∃ x ∈ xs, (extent x).Holds n

variable {extent}

theorem Stacked.layout {xs : List α} (stacked : Stacked extent xs) : Layout extent xs where
  sorted := stacked.imp fun before => Nat.le_trans (Nat.le_add_right _ _) before
  apart := stacked.imp not_meets_of_stop_le

/-- A new element goes before the first one that does not start below it. -/
theorem Stacked.orderedInsert {xs : List α} {r : α → α → Prop} [DecidableRel r] {new : α}
    (order : ∀ x y, r x y ↔ (extent x).first ≤ (extent y).first) (stacked : Stacked extent xs)
    (below : ∀ x ∈ xs, (extent x).first < (extent new).first → (extent x).stop ≤ (extent new).first)
    (above : ∀ x ∈ xs, (extent new).first ≤ (extent x).first → (extent new).stop ≤ (extent x).first) :
    Stacked extent (xs.orderedInsert r new) := by
  induction xs with
  | nil => exact List.pairwise_singleton _ _
  | cons x rest ih =>
    obtain ⟨head, tail⟩ := List.pairwise_cons.mp stacked
    rw [List.orderedInsert_cons]
    split
    · rename_i precedes
      have first := (order new x).mp precedes
      refine List.pairwise_cons.mpr ⟨fun y member => ?_, stacked⟩
      refine above y member ?_
      cases List.mem_cons.mp member with
      | inl same => exact same ▸ first
      | inr later =>
        have following := head y later
        exact Nat.le_trans first (Nat.le_trans (Nat.le_add_right _ _) following)
    · rename_i follows
      have first : (extent x).first < (extent new).first :=
        Nat.lt_of_not_le fun le => follows ((order new x).mpr le)
      have rest := ih tail (fun y member => below y (List.mem_cons_of_mem _ member))
        fun y member => above y (List.mem_cons_of_mem _ member)
      refine List.pairwise_cons.mpr ⟨fun y member => ?_, rest⟩
      cases (List.mem_orderedInsert r).mp member with
      | inl same => exact same ▸ below x List.mem_cons_self first
      | inr later => exact head y later

theorem Layout.tail {x : α} {xs : List α} (layout : Layout extent (x :: xs)) : Layout extent xs where
  sorted := (List.pairwise_cons.mp layout.sorted).2
  apart := (List.pairwise_cons.mp layout.apart).2

theorem Layout.sublist {xs ys : List α} (layout : Layout extent ys) (sub : xs.Sublist ys) :
    Layout extent xs where
  sorted := layout.sorted.sublist sub
  apart := layout.apart.sublist sub

/-- A number is held by one element only. -/
theorem Layout.unique {xs : List α} (layout : Layout extent xs) {x y : α} (first : x ∈ xs)
    (second : y ∈ xs) (left : (extent x).Holds n) (right : (extent y).Holds n) : x = y := by
  by_contra different
  have symmetric : Std.Symm fun x y : α => ¬(extent x).Meets (extent y) :=
    ⟨fun _ _ apart meets => apart meets.symm⟩
  exact layout.apart.forall first second different ⟨n, left, right⟩

/-- What follows in the list and holds the end of an element starts there. -/
theorem Layout.next {x y : α} {xs : List α} (layout : Layout extent (x :: xs)) (member : y ∈ xs)
    (holds : (extent y).Holds (extent x).stop) : (extent y).first = (extent x).stop := by
  have sorted := (List.pairwise_cons.mp layout.sorted).1 y member
  have apart := (List.pairwise_cons.mp layout.apart).1 y member
  by_contra different
  have earlier : (extent y).first < (extent x).stop := Nat.lt_of_le_of_ne holds.1 different
  exact apart ⟨(extent y).first, ⟨sorted, earlier⟩, Nat.le_refl _, Nat.lt_of_le_of_lt holds.1 holds.2⟩

/-- Nothing of an element lies in what comes before it. -/
theorem Layout.head_not_holds {x y : α} {xs : List α} (layout : Layout extent (x :: xs)) (member : y ∈ xs)
    (holds : (extent y).Holds n) : ¬(extent x).Holds n := fun both =>
  (List.pairwise_cons.mp layout.apart).1 y member ⟨n, both, holds⟩

end Lists

/-- The longest prefix of `count` numbers from `start` on which `p` holds has
length `m`. -/
structure Reach (p : Nat → Prop) (start count m : Nat) : Prop where
  le : m ≤ count
  all : ∀ i < m, p (start + i)
  ends : m < count → ¬p (start + m)

theorem Reach.unique {p : Nat → Prop} {count : Nat} (first : Reach p start count m) (second : Reach p start count k) :
    m = k := by
  rcases Nat.lt_trichotomy m k with less | same | more
  · exact absurd (second.all m less) (first.ends (Nat.lt_of_lt_of_le less second.le))
  · exact same
  · exact absurd (first.all k more) (second.ends (Nat.lt_of_lt_of_le more first.le))

/-- A stretch on which `p` holds, and then the rest. -/
theorem Reach.append {p : Nat → Prop} {count : Nat} (here : ∀ i < k, p (start + i)) (fits : k ≤ count)
    (rest : Reach p (start + k) (count - k) m) : Reach p start count (k + m) where
  le := by
    have := rest.le
    omega
  all := by
    intro i below
    by_cases early : i < k
    · exact here i early
    · have later := rest.all (i - k) (by omega)
      rwa [show start + k + (i - k) = start + i by omega] at later
  ends := by
    intro short
    have stops := rest.ends (by omega)
    rwa [Nat.add_assoc] at stops

end Extent
