import InfixOS.Posix.Words

/-! The words of a command line, as `sh -c` reads a line that is one simple
command: blanks separate words, quotes and backslashes are removed, and a word
that starts with `#` begins a comment. A line whose meaning depends on more than
its words (operators, expansions, patterns, several lines) has none here. The shell
is bash, which expands braces also when it is called `sh`. -/
namespace Posix

def apostrophe : Char := Char.ofNat 39

def quotationMark : Char := Char.ofNat 34

def backquote : Char := Char.ofNat 96

def openBrace : Char := Char.ofNat 123

inductive Quoting where
  | bare
  | single
  | double
  | escaped
  | doubleEscaped
  deriving DecidableEq, Repr

def isSeparator (c : Char) : Bool := c = ' ' || c = '\t'

def isOperatorChar (c : Char) : Bool := "|&;<>()\n".toList.contains c

/-- A character that goes into a word as it is. Unless it is ordinary, the word may
still be expanded. -/
def stands (c : Char) : Bool :=
  !isSeparator c && !isOperatorChar c && c ≠ apostrophe && c ≠ quotationMark && c ≠ '\\' && c ≠ backquote

/-- A character that an expansion may begin with. -/
def isActive (c : Char) : Bool := c = '$' || isPattern c || c = openBrace

/-- A character that stands for itself wherever it is in a word, except for `#` and `~`
at the beginning. -/
def isOrdinary (c : Char) : Bool := stands c && !isActive c

/-- A word that the shell takes as it is written. -/
def isPlainWord (word : List Char) : Bool :=
  word.all isOrdinary && word ≠ [] && word.head? ≠ some '#' && word.head? ≠ some '~'

def closeWord : Option (List Char) → List String → List String
  | none, later => later
  | some word, later => String.ofList word :: later

def pushChar (word : Option (List Char)) (c : Char) : Option (List Char) :=
  some (word.getD [] ++ [c])

/-- `word` is what has been read of the current word, if one has begun. -/
def readWords : Quoting → Option (List Char) → List Char → Option (List String)
  | .bare, word, [] => some (closeWord word [])
  | _, _, [] => none
  | .bare, word, c :: rest =>
    if isSeparator c then (readWords .bare none rest).map (closeWord word)
    else if c = apostrophe then readWords .single (some (word.getD [])) rest
    else if c = quotationMark then readWords .double (some (word.getD [])) rest
    else if c = '\\' then readWords .escaped word rest
    else if c = '#' ∧ word = none then if rest.contains '\n' then none else some []
    else if !isOrdinary c ∨ (c = '~' ∧ word = none) then none
    else readWords .bare (pushChar word c) rest
  | .single, word, c :: rest =>
    if c = apostrophe then readWords .bare word rest else readWords .single (pushChar word c) rest
  | .double, word, c :: rest =>
    if c = quotationMark then readWords .bare word rest
    else if c = '\\' then readWords .doubleEscaped word rest
    else if "$`".toList.contains c then none
    else readWords .double (pushChar word c) rest
  | .escaped, word, c :: rest =>
    if c = '\n' then readWords .bare word rest else readWords .bare (pushChar word c) rest
  | .doubleEscaped, word, c :: rest =>
    if c = '\n' then readWords .double word rest
    else if "$`\\".toList.contains c ∨ c = quotationMark then readWords .double (pushChar word c) rest
    else readWords .double (pushChar (pushChar word '\\') c) rest

def commandWords (line : String) : Option (List String) := readWords .bare none line.toList

theorem stands_iff : stands c = true ↔ isSeparator c = false ∧ isOperatorChar c = false ∧ c ≠ apostrophe ∧
    c ≠ quotationMark ∧ c ≠ '\\' ∧ c ≠ backquote := by
  simp [stands, and_assoc]

theorem ordinary_iff : isOrdinary c = true ↔ stands c = true ∧ c ≠ '$' ∧ isPattern c = false ∧ c ≠ openBrace := by
  simp [isOrdinary, isActive, and_assoc]

theorem stands_of_ordinary (ordinary : isOrdinary c = true) : stands c = true := (ordinary_iff.mp ordinary).1

theorem literal_of_ordinary (ordinary : s.toList.all isOrdinary = true) : Literal s := by
  intro c member
  obtain ⟨standing, -, pattern, -⟩ := ordinary_iff.mp (List.all_eq_true.mp ordinary c member)
  obtain ⟨separator, operator, -⟩ := stands_iff.mp standing
  refine ⟨?_, pattern⟩
  have newline : c ≠ '\n' := by
    rintro rfl
    exact absurd operator (by decide)
  simpa [isBlank, isSeparator, newline] using separator

theorem readWords_ordinary (chars : List Char) (ordinary : ∀ c ∈ chars, isOrdinary c = true)
    (word rest : List Char) :
    readWords .bare (some word) (chars ++ rest) = readWords .bare (some (word ++ chars)) rest := by
  induction chars generalizing word with
  | nil => simp
  | cons c chars ih =>
    have plain := ordinary c List.mem_cons_self
    obtain ⟨separator, -, single, double, escape, -⟩ := stands_iff.mp (stands_of_ordinary plain)
    have tail := ih (fun d member => ordinary d (List.mem_cons_of_mem _ member)) (word ++ [c])
    simpa [readWords, separator, single, double, escape, plain, pushChar] using tail

/-- Ordinary characters after a plain word make a longer one. -/
theorem plainWord_append (plain : isPlainWord first = true) (ordinary : second.all isOrdinary = true) :
    isPlainWord (first ++ second) = true := by
  cases first with
  | nil => simp [isPlainWord] at plain
  | cons c rest =>
    simp only [isPlainWord, List.cons_append, List.all_cons, List.all_append, Bool.and_eq_true, List.head?_cons] at plain ⊢
    exact ⟨⟨⟨⟨plain.1.1.1.1, plain.1.1.1.2, ordinary⟩, by simp⟩, plain.1.2⟩, plain.2⟩

def joinWords : List String → List Char
  | [] => []
  | [word] => word.toList
  | word :: next :: later => word.toList ++ ' ' :: joinWords (next :: later)

theorem readWords_plain (word rest : List Char) (plain : isPlainWord word = true) :
    readWords .bare none (word ++ rest) = readWords .bare (some word) rest := by
  cases word with
  | nil => simp [isPlainWord] at plain
  | cons c tail =>
    simp only [isPlainWord, List.all_cons, Bool.and_eq_true, decide_eq_true_eq, List.head?_cons, ne_eq,
      Option.some.injEq] at plain
    obtain ⟨⟨⟨⟨head, ordinary⟩, -⟩, comment⟩, home⟩ := plain
    obtain ⟨separator, -, single, double, escape, -⟩ := stands_iff.mp (stands_of_ordinary head)
    have later := readWords_ordinary tail (List.all_eq_true.mp ordinary) [c] rest
    simpa [readWords, separator, single, double, escape, head, comment, home, pushChar] using later

/-- Plain words with single blanks between them are the words of their line. -/
theorem readWords_join (words : List String) (plain : ∀ w ∈ words, isPlainWord w.toList = true) :
    readWords .bare none (joinWords words) = some words := by
  induction words with
  | nil => rfl
  | cons word later ih =>
    have here := plain word List.mem_cons_self
    have rest := ih fun w member => plain w (List.mem_cons_of_mem _ member)
    cases later with
    | nil =>
      have read := readWords_plain word.toList [] here
      rw [List.append_nil] at read
      rw [joinWords, read]
      simp [readWords, closeWord]
    | cons next later =>
      rw [joinWords, readWords_plain _ _ here]
      simp [readWords, isSeparator, rest, closeWord]

/-- A quotation mark is removed, so the word is not the text that was written. -/
example : commandWords "ln -s \"a b\" c # d" = some ["ln", "-s", "a b", "c"] := by decide

end Posix
