import Mathlib.Data.List.Sort
import Mathlib.Data.String.Basic

/-! How a POSIX shell turns an unquoted expansion into words: splitting at the
default IFS blanks, then pathname expansion. The files a pattern may match are
not fixed here; a shell is any expansion with the two documented properties. -/
namespace Posix

def isBlank (c : Char) : Bool := c = ' ' || c = '\t' || c = '\n'

def isPattern (c : Char) : Bool := c = '*' || c = '?' || c = '[' || c = '\\'

/-- Field splitting. -/
def fields (s : String) : List String :=
  ((s.toList.splitOnP isBlank).filter (· ≠ [])).map String.ofList

/-- A pattern without a match, and a word without pattern characters, stand
for themselves. -/
structure Shell where
  glob : String → List String
  glob_nonempty : ∀ w, glob w ≠ []
  glob_plain : ∀ w, (∀ c ∈ w.toList, isPattern c = false) → glob w = [w]

/-- No pattern has a match. -/
def Shell.bare : Shell := ⟨fun w => [w], by simp, by simp⟩

/-- Words of an unquoted expansion. -/
def Shell.expand (sh : Shell) (s : String) : List String := (fields s).flatMap sh.glob

/-- No character of the word is special to an unquoted expansion. -/
def Literal (s : String) : Prop := ∀ c ∈ s.toList, isBlank c = false ∧ isPattern c = false

instance (s : String) : Decidable (Literal s) :=
  List.decidableBAll (fun c => isBlank c = false ∧ isPattern c = false) s.toList

/-- sort(1) in the C locale: code point order is the byte order of UTF-8. -/
def sort (lines : List String) : List String := lines.insertionSort (· ≤ ·)

theorem fields_of_plain (plain : ∀ c ∈ s.toList, isBlank c = false) (nonempty : s ≠ "") :
    fields s = [s] := by
  have some : s.toList ≠ [] := by simpa using nonempty
  simp [fields, List.splitOnP_eq_singleton plain, some]

/-- The first word of a text, up to a blank. -/
theorem fields_cons (text : s.toList = word.toList ++ c :: rest.toList) (plain : ∀ c ∈ word.toList, isBlank c = false)
    (nonempty : word ≠ "") (blank : isBlank c = true) : fields s = word :: fields rest := by
  have kept : word.toList ≠ [] := by simpa using nonempty
  rw [fields, text, List.splitOnP_append_cons_of_forall_mem plain c blank rest.toList,
    List.filter_cons_of_pos (by simpa using kept), List.map_cons, String.ofList_toList, fields]

theorem expand_literal (sh : Shell) (literal : Literal s) (nonempty : s ≠ "") :
    sh.expand s = [s] := by
  rw [Shell.expand, fields_of_plain (fun c h => (literal c h).1) nonempty]
  simpa using sh.glob_plain s fun c h => (literal c h).2

theorem literal_append (first : Literal s) (second : Literal t) : Literal (s ++ t) := by
  intro c member
  rw [String.toList_append, List.mem_append] at member
  rcases member with h | h
  · exact first c h
  · exact second c h

private theorem splitOnP_keeps {p : Char → Bool} {xs : List Char} (member : c ∈ xs)
    (plain : p c = false) : ∃ part ∈ xs.splitOnP p, c ∈ part := by
  induction xs with
  | nil => simp at member
  | cons x xs ih =>
    rw [List.splitOnP_cons_eq_if_modifyHead]
    rcases List.mem_cons.mp member with rfl | tail
    · cases rest : xs.splitOnP p with
      | nil => exact absurd rest (List.splitOnP_ne_nil _ _)
      | cons part parts => exact ⟨c :: part, by simp [plain], by simp⟩
    · obtain ⟨part, found, inside⟩ := ih tail
      cases rest : xs.splitOnP p with
      | nil => exact absurd rest (List.splitOnP_ne_nil _ _)
      | cons first others =>
        rw [rest] at found
        rcases List.mem_cons.mp found with rfl | later
        · cases sep : p x with
          | true => exact ⟨part, by simp, inside⟩
          | false => exact ⟨x :: part, by simp, by simp [inside]⟩
        · exact ⟨part, by cases p x <;> simp [later], inside⟩

/-- A word is lost only when it consists of blanks. -/
theorem expand_nonempty (sh : Shell) (member : c ∈ s.toList) (visible : isBlank c = false) :
    sh.expand s ≠ [] := by
  obtain ⟨part, found, inside⟩ := splitOnP_keeps member visible
  have field : String.ofList part ∈ fields s := by
    refine List.mem_map.mpr ⟨part, List.mem_filter.mpr ⟨found, ?_⟩, rfl⟩
    simpa using List.ne_nil_of_mem inside
  intro none
  rw [Shell.expand, List.flatMap_eq_nil_iff] at none
  exact sh.glob_nonempty _ (none _ field)

private theorem length_flatMap_le {f : β → List γ} {l : List β} (nonempty : ∀ x ∈ l, f x ≠ []) :
    l.length ≤ (l.flatMap f).length := by
  induction l with
  | nil => simp
  | cons x rest ih =>
    have positive := List.length_pos_iff.mpr (nonempty x (by simp))
    have tail := ih fun y member => nonempty y (by simp [member])
    simp only [List.flatMap_cons, List.length_append, List.length_cons]
    omega

/-- Word by word expansion yields one result a word only if each word yields one. -/
theorem flatMap_singletons {f : β → List γ} {g : β → γ} {l : List β}
    (nonempty : ∀ x ∈ l, f x ≠ []) (same : l.flatMap f = l.map g) : ∀ x ∈ l, f x = [g x] := by
  induction l with
  | nil => simp
  | cons x rest ih =>
    have restNonempty : ∀ y ∈ rest, f y ≠ [] := fun y member => nonempty y (by simp [member])
    rw [List.flatMap_cons, List.map_cons] at same
    cases word : f x with
    | nil => exact absurd word (nonempty x (by simp))
    | cons head tail =>
      rw [word, List.cons_append] at same
      obtain ⟨rfl, sameRest⟩ := List.cons.inj same
      have count := congrArg List.length sameRest
      have bound := length_flatMap_le restNonempty
      rw [List.length_append, List.length_map] at count
      have empty : tail = [] := List.length_eq_zero_iff.mp (by omega)
      subst empty
      intro y member
      rcases List.mem_cons.mp member with rfl | later
      · exact word
      · exact ih restNonempty (by simpa using sameRest) y later

theorem sort_perm (lines : List String) : (sort lines).Perm lines := List.perm_insertionSort _ _

theorem sort_sorted (lines : List String) : (sort lines).Pairwise (· ≤ ·) :=
  List.pairwise_insertionSort _ _

end Posix
