import Mathlib.Data.List.Basic
import Mathlib.Data.String.Basic

/-! Text files as programs read them: line by line, into a buffer of fixed size or
without a limit. A character stands for a byte other than NUL. -/
namespace Posix

abbrev Text := List Char

/-- Cut after every newline and wherever the part read so far is full. -/
def cut (full : Text → Bool) (part : Text) : Text → List Text
  | [] => if part = [] then [] else [part]
  | c :: rest =>
    if c = '\n' ∨ full (part ++ [c]) then (part ++ [c]) :: cut full [] rest
    else cut full (part ++ [c]) rest

def chomp (part : Text) : Text := if part.getLast? = some '\n' then part.dropLast else part

/-- What `while (fgets(line, size, fp)) chomp(line)` goes through. -/
def fgetsLines (size : Nat) (text : Text) : List String :=
  (cut (fun part => part.length + 1 = size) [] text).map fun part => String.ofList (chomp part)

/-- The lines of a text, of any length. -/
def lines (text : Text) : List String := (cut (fun _ => false) [] text).map fun part => String.ofList (chomp part)

/-- What `fprintf(fp, "%s\n", ..)` writes, for each of the strings. -/
def unlines (names : List String) : Text := names.flatMap fun name => name.toList ++ ['\n']

@[simp] theorem unlines_nil : unlines [] = [] := rfl

@[simp] theorem unlines_append (names more : List String) : unlines (names ++ more) = unlines names ++ unlines more :=
  List.flatMap_append

/-- A line that fits is read in one piece. -/
theorem cut_line {full : Text → Bool} {line : Text} (part rest : Text) (plain : '\n' ∉ line)
    (fits : ∀ front back, line = front ++ back → front ≠ [] → full (part ++ front) = false) :
    cut full part (line ++ '\n' :: rest) = (part ++ line ++ ['\n']) :: cut full [] rest := by
  induction line generalizing part with
  | nil => simp [cut]
  | cons c line ih =>
    simp only [List.mem_cons, not_or] at plain
    have room := fits [c] line rfl (by simp)
    have other : ¬(c = '\n' ∨ full (part ++ [c])) := by simp [room, Ne.symm plain.1]
    rw [List.cons_append, cut, if_neg other, ih _ plain.2]
    · simp
    · intro front back split nonempty
      have whole := fits (c :: front) back (by simp [split]) (by simp)
      rwa [List.append_assoc, List.singleton_append]

theorem chomp_line (line : Text) : chomp (line ++ ['\n']) = line := by simp [chomp]

/-- Names that fit are read back as they were written. -/
theorem cut_unlines {full : Text → Bool} {names : List String} (plain : ∀ name ∈ names, '\n' ∉ name.toList)
    (fits : ∀ name ∈ names, ∀ front back, name.toList = front ++ back → front ≠ [] → full front = false) :
    (cut full [] (unlines names)).map (fun part => String.ofList (chomp part)) = names := by
  induction names with
  | nil => rfl
  | cons name rest ih =>
    have text : unlines (name :: rest) = name.toList ++ '\n' :: unlines rest := by simp [unlines]
    rw [text, cut_line [] _ (plain name (by simp)) (by simpa using fits name (by simp)), List.map_cons,
      ih (fun n member => plain n (by simp [member])) (fun n member => fits n (by simp [member])),
      List.nil_append, chomp_line, String.ofList_toList]

theorem fgetsLines_unlines {names : List String}
    (short : ∀ name ∈ names, '\n' ∉ name.toList ∧ name.toList.length + 1 < size) :
    fgetsLines size (unlines names) = names := by
  apply cut_unlines (fun name member => (short name member).1)
  intro name member front back split _
  have bound := (short name member).2
  have length := congrArg List.length split
  rw [List.length_append] at length
  simp only [decide_eq_false_iff_not]
  omega

theorem lines_unlines {names : List String} (plain : ∀ name ∈ names, '\n' ∉ name.toList) :
    lines (unlines names) = names :=
  cut_unlines plain fun _ _ _ _ _ _ => rfl

theorem chomp_plain {part : Text} (plain : '\n' ∉ part) : chomp part = part := by
  rw [chomp, if_neg]
  intro last
  exact plain (List.mem_of_getLast? last)

/-- Every piece but its newline is a line that fits. -/
theorem cut_bounded {size : Nat} {part : Text} (plain : '\n' ∉ part) (room : part.length + 1 < size) :
    ∀ x ∈ cut (fun part => part.length + 1 = size) part text, '\n' ∉ chomp x ∧ (chomp x).length < size := by
  induction text generalizing part with
  | nil =>
    intro x member
    rw [cut] at member
    split at member
    · cases member
    · rw [List.mem_singleton.mp member, chomp_plain plain]
      exact ⟨plain, by omega⟩
  | cons c rest ih =>
    intro x member
    have empty : '\n' ∉ ([] : Text) ∧ ([] : Text).length + 1 < size := ⟨by simp, by simp only [List.length_nil]; omega⟩
    by_cases newline : c = '\n'
    · subst newline
      rw [cut, if_pos (.inl rfl)] at member
      rcases List.mem_cons.mp member with rfl | member
      · rw [chomp_line]
        exact ⟨plain, by omega⟩
      · exact ih empty.1 empty.2 x member
    · have plain' : '\n' ∉ part ++ [c] := by simp [plain, Ne.symm newline]
      rw [cut] at member
      split at member
      · rename_i full
        simp only [newline, false_or, decide_eq_true_eq] at full
        rcases List.mem_cons.mp member with rfl | member
        · rw [chomp_plain plain']
          exact ⟨plain', by omega⟩
        · exact ih empty.1 empty.2 x member
      · rename_i more
        simp only [newline, false_or, decide_eq_true_eq] at more
        apply ih plain' _ x member
        simp only [List.length_append, List.length_singleton] at more ⊢
        omega

theorem fgetsLines_bounded (text : Text) (size : Nat) (room : 1 < size) :
    ∀ line ∈ fgetsLines size text, '\n' ∉ line.toList ∧ line.toList.length < size := by
  intro line member
  obtain ⟨x, piece, rfl⟩ := List.mem_map.mp member
  rw [String.toList_ofList]
  exact cut_bounded (by simp) room x piece

/-- The first line of a file that was written from a line that had been read, also
when there is no room for the newline. -/
theorem fgetsLines_head {line : String} (plain : '\n' ∉ line.toList) (fits : line.toList.length < size) :
    (fgetsLines size (unlines [line])).head? = some line := by
  have first : ∀ (rest part : Text), '\n' ∉ rest → '\n' ∉ part → part.length + rest.length < size →
      ∃ x more, cut (fun part => part.length + 1 = size) part (rest ++ ['\n']) = x :: more ∧ chomp x = part ++ rest := by
    intro rest
    induction rest with
    | nil =>
      intro part _ _ _
      exact ⟨part ++ ['\n'], [], by simp [cut], by rw [chomp_line, List.append_nil]⟩
    | cons c rest ih =>
      intro part plainRest plainPart room
      simp only [List.mem_cons, not_or, List.length_cons] at plainRest room
      have plain' : '\n' ∉ part ++ [c] := by simp [plainPart, plainRest.1]
      by_cases full : (part ++ [c]).length + 1 = size
      · have nothing : rest = [] := by
          simp only [List.length_append, List.length_singleton] at full
          exact List.length_eq_zero_iff.mp (by omega)
        subst nothing
        refine ⟨part ++ [c], _, by rw [List.cons_append, cut, if_pos (.inr (by simpa using full))], ?_⟩
        exact chomp_plain plain'
      · obtain ⟨x, more, read, chomped⟩ := ih (part ++ [c]) plainRest.2 plain' (by
          simp only [List.length_append, List.length_singleton]
          omega)
        refine ⟨x, more, ?_, by rw [chomped, List.append_assoc, List.singleton_append]⟩
        rw [List.cons_append, cut, if_neg (by simp only [decide_eq_true_eq, not_or]; exact ⟨Ne.symm plainRest.1, full⟩), read]
  have text : unlines [line] = line.toList ++ ['\n'] := by simp [unlines]
  obtain ⟨x, more, read, chomped⟩ := first line.toList [] plain (by simp) (by simpa using fits)
  rw [fgetsLines, text, read, List.map_cons, List.head?_cons, chomped, List.nil_append, String.ofList_toList]

section Pieces

/-- Cutting loses nothing. -/
theorem cut_flatten (full : Text → Bool) (part text : Text) : (cut full part text).flatten = part ++ text := by
  induction text generalizing part with
  | nil =>
    rw [cut]
    split
    · rename_i empty
      simp [empty]
    · simp
  | cons c rest ih =>
    rw [cut]
    split
    · rw [List.flatten_cons, ih]
      simp
    · rw [ih]
      simp

/-- A piece is not empty, and a newline can only be its last character. -/
theorem cut_piece {full : Text → Bool} {part : Text} (plain : '\n' ∉ part) :
    ∀ x ∈ cut full part text, x ≠ [] ∧ '\n' ∉ x.dropLast := by
  induction text generalizing part with
  | nil =>
    intro x member
    rw [cut] at member
    split at member
    · cases member
    · rename_i some
      rw [List.mem_singleton.mp member]
      exact ⟨some, fun inside => plain (List.dropLast_subset _ inside)⟩
  | cons c rest ih =>
    intro x member
    rw [cut] at member
    split at member
    · rcases List.mem_cons.mp member with rfl | later
      · simp [plain]
      · exact ih (by simp) x later
    · rename_i more
      rw [not_or] at more
      exact ih (by simp [plain, Ne.symm more.1]) x member

theorem newline_chomp {part : Text} (plain : '\n' ∉ part.dropLast) : '\n' ∉ chomp part := by
  rw [chomp]
  split
  · exact plain
  · rename_i last
    rcases List.eq_nil_or_concat part with rfl | ⟨front, c, rfl⟩
    · simp
    · rw [List.concat_eq_append, List.getLast?_append] at last
      rw [List.concat_eq_append, List.dropLast_concat] at plain
      simpa [plain, eq_comm] using last

theorem cut_length {part : Text} (room : part.length + 1 < size) :
    ∀ x ∈ cut (fun part => part.length + 1 = size) part text, x.length < size := by
  induction text generalizing part with
  | nil =>
    intro x member
    rw [cut] at member
    split at member
    · cases member
    · rw [List.mem_singleton.mp member]
      omega
  | cons c rest ih =>
    intro x member
    rw [cut] at member
    have longer : (part ++ [c]).length = part.length + 1 := by simp
    split at member
    · rcases List.mem_cons.mp member with rfl | later
      · omega
      · exact ih (by simp only [List.length_nil]; omega) x later
    · rename_i more
      simp only [decide_eq_true_eq, not_or] at more
      exact ih (by omega) x member

theorem cut_newline (full : Text → Bool) (part text rest : Text) :
    cut full part (text ++ '\n' :: rest) = cut full part (text ++ ['\n']) ++ cut full [] rest := by
  induction text generalizing part with
  | nil => simp [cut]
  | cons c text ih =>
    rw [List.cons_append, List.cons_append, cut, cut]
    split
    · rw [ih, List.cons_append]
    · exact ih _

/-- A buffer cuts each line on its own. -/
theorem cut_eq_flatMap (full : Text → Bool) (line text : Text) :
    (cut (fun _ => false) line text).flatMap (cut full []) = cut full [] (line ++ text) := by
  induction text generalizing line with
  | nil =>
    rw [cut, List.append_nil]
    split
    · rename_i empty
      rw [empty]
      rfl
    · simp
  | cons c rest ih =>
    rw [cut]
    by_cases newline : c = '\n'
    · subst newline
      rw [if_pos (.inl rfl), List.flatMap_cons, ih, List.nil_append, ← cut_newline]
    · rw [if_neg (by simp [newline]), ih, List.append_assoc]
      rfl

/-- A line that fits into the buffer is left whole. -/
theorem cut_short {line : Text} (plain : '\n' ∉ line.dropLast) (some : part ++ line ≠ [])
    (fits : (part ++ line).length < size) :
    cut (fun part => part.length + 1 = size) part line = [part ++ line] := by
  induction line generalizing part with
  | nil =>
    rw [List.append_nil] at some
    rw [cut, if_neg some, List.append_nil]
  | cons c rest ih =>
    cases rest with
    | nil => simp [cut]
    | cons d rest =>
      rw [List.dropLast_cons_cons, List.mem_cons, not_or] at plain
      have room : (part ++ [c]).length + 1 ≠ size := by
        simp only [List.length_append, List.length_cons, List.length_nil] at fits ⊢
        omega
      have whole : part ++ [c] ++ d :: rest = part ++ c :: d :: rest := by simp
      rw [cut, if_neg (by simp only [decide_eq_true_eq, not_or]; exact ⟨Ne.symm plain.1, room⟩),
        ih plain.2 (by simp) (by rwa [whole]), whole]

/-- If every line, with its newline, fits, then the pieces are the lines. -/
theorem cut_eq_of_short {text : Text} (short : ∀ x ∈ cut (fun _ => false) [] text, x.length < size) :
    cut (fun part => part.length + 1 = size) [] text = cut (fun _ => false) [] text := by
  have split := cut_eq_flatMap (fun part => part.length + 1 = size) [] text
  rw [List.nil_append] at split
  rw [← split]
  have each : ∀ x ∈ cut (fun _ => false) [] text, cut (fun part => part.length + 1 = size) [] x = [x] := by
    intro x member
    obtain ⟨nonempty, plain⟩ := cut_piece (by simp) x member
    exact cut_short plain (by simpa using nonempty) (by simpa using short x member)
  rw [List.flatMap_congr each]
  simp

theorem length_flatMap_eq {f : α → List β} {l : List α} (some : ∀ x ∈ l, f x ≠ [])
    (same : (l.flatMap f).length = l.length) : ∀ x ∈ l, (f x).length = 1 := by
  have atLeast : ∀ l : List α, (∀ x ∈ l, f x ≠ []) → l.length ≤ (l.flatMap f).length := by
    intro l some
    induction l with
    | nil => simp
    | cons x rest ih =>
      have more := ih fun y member => some y (List.mem_cons_of_mem _ member)
      have one := List.length_pos_of_ne_nil (some x List.mem_cons_self)
      rw [List.flatMap_cons, List.length_append, List.length_cons]
      omega
  induction l with
  | nil => simp
  | cons x rest ih =>
    have later : ∀ y ∈ rest, f y ≠ [] := fun y member => some y (List.mem_cons_of_mem _ member)
    have more := atLeast rest later
    have one := List.length_pos_of_ne_nil (some x List.mem_cons_self)
    rw [List.flatMap_cons, List.length_append, List.length_cons] at same
    intro y member
    rcases List.mem_cons.mp member with rfl | member
    · omega
    · exact ih later (by omega) y member

/-- There are as many pieces as lines exactly if every line, with its newline, fits. -/
theorem cut_length_eq_iff (room : 1 < size) (text : Text) :
    (cut (fun part => part.length + 1 = size) [] text).length = (cut (fun _ => false) [] text).length ↔
      ∀ x ∈ cut (fun _ => false) [] text, x.length < size := by
  constructor
  · intro same x member
    have split := cut_eq_flatMap (fun part => part.length + 1 = size) [] text
    rw [List.nil_append] at split
    rw [← split] at same
    have some : ∀ x ∈ cut (fun _ => false) [] text, cut (fun part => part.length + 1 = size) [] x ≠ [] := by
      intro x member nothing
      have whole := cut_flatten (fun part => part.length + 1 = size) [] x
      rw [nothing] at whole
      exact (cut_piece (by simp) x member).1 whole.symm
    obtain ⟨y, only⟩ := List.length_eq_one_iff.mp (length_flatMap_eq some same x member)
    have whole := cut_flatten (fun part => part.length + 1 = size) [] x
    rw [only, List.flatten_singleton, List.nil_append] at whole
    have bound : ∀ z ∈ cut (fun part => part.length + 1 = size) [] x, z.length < size := cut_length (by simpa using room)
    rw [only, whole] at bound
    exact bound x List.mem_cons_self
  · intro short
    rw [cut_eq_of_short short]

/-- A piece that has begun goes on with what was there. -/
theorem cut_front (full : Text → Bool) {part : Text} (plain : '\n' ∉ part) (some : part ≠ []) (text : Text) :
    ∃ x rest, cut full part text = x :: rest ∧ part.length ≤ (chomp x).length := by
  induction text generalizing part with
  | nil =>
    rw [cut, if_neg some]
    exact ⟨part, [], rfl, by rw [chomp_plain plain]⟩
  | cons c text ih =>
    by_cases newline : c = '\n'
    · subst newline
      rw [cut, if_pos (.inl rfl)]
      exact ⟨_, _, rfl, by rw [chomp_line]⟩
    · have plain' : '\n' ∉ part ++ [c] := by simp [plain, Ne.symm newline]
      have longer : (part ++ [c]).length = part.length + 1 := by simp
      rw [cut]
      split
      · exact ⟨_, _, rfl, by rw [chomp_plain plain']; omega⟩
      · obtain ⟨x, rest, read, bound⟩ := ih plain' (by simp)
        exact ⟨x, rest, read, by omega⟩

private theorem cut_head_iff {word : Text} (short : word.length + 1 < size) {part : Text} (plain : '\n' ∉ part)
    (room : part.length + 1 < size) (text : Text) :
    (cut (fun part => part.length + 1 = size) part text).head?.map chomp = some word ↔
      (cut (fun _ => false) part text).head?.map chomp = some word := by
  induction text generalizing part with
  | nil => rfl
  | cons c text ih =>
    by_cases newline : c = '\n'
    · rw [cut, cut, if_pos (.inl newline), if_pos (.inl newline)]
      rfl
    · have plain' : '\n' ∉ part ++ [c] := by simp [plain, Ne.symm newline]
      have longer : (part ++ [c]).length = part.length + 1 := by simp
      have unlimited : cut (fun _ => false) part (c :: text) = cut (fun _ => false) (part ++ [c]) text := by
        rw [cut, if_neg (by simp [newline])]
      rw [unlimited, cut]
      split
      · -- the buffer is full, and the line is longer than the word either way
        rename_i full
        simp only [newline, false_or, decide_eq_true_eq] at full
        obtain ⟨x, rest, read, bound⟩ := cut_front (fun _ => false) plain' (by simp) text
        rw [read, List.head?_cons, List.head?_cons, Option.map_some, Option.map_some, chomp_plain plain']
        constructor
        · intro same
          have length := congrArg List.length (Option.some.inj same)
          omega
        · intro same
          have length := congrArg List.length (Option.some.inj same)
          omega
      · rename_i more
        simp only [newline, false_or, decide_eq_true_eq] at more
        exact ih plain' (by omega)

/-- A buffer with room to spare shows whether the first line is a certain word. -/
theorem fgetsLines_head_iff {word : String} (short : word.toList.length + 1 < size) (text : Text) :
    (fgetsLines size text).head? = some word ↔ (lines text).head? = some word := by
  have heads := cut_head_iff short List.not_mem_nil (by simp only [List.length_nil]; omega) text
  have read (pieces : List Text) : (pieces.map fun part => String.ofList (chomp part)).head? = some word ↔
      pieces.head?.map chomp = some word.toList := by
    cases pieces with
    | nil => simp
    | cons x rest =>
      rw [List.map_cons, List.head?_cons, List.head?_cons, Option.map_some, Option.some.injEq, Option.some.injEq,
        ← String.toList_inj, String.toList_ofList]
  rw [fgetsLines, lines, read, read]
  exact heads

end Pieces

end Posix
