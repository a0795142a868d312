import InfixOS.Posix.CommandLine

/-! How a shell takes its input apart into tokens, and which texts it leaves as they
are. Unlike the words of a command line, tokens cover the operators, and a word keeps
its quotes until it is expanded. -/
namespace Posix

/-- A character of a word: one that is not quoted, one that is, or a quote. -/
inductive Glyph where
  | bare (c : Char)
  | quoted (c : Char)
  | quote (c : Char)
  deriving DecidableEq, Repr

inductive Token where
  | word (glyphs : List Glyph)
  | ioNumber (digits : List Char)
  | operator (text : List Char)
  deriving DecidableEq, Repr

inductive LexPlace where
  | between
  | comment
  | operator (text : List Char)
  | word (glyphs : List Glyph) (quoting : Quoting)
  deriving DecidableEq, Repr

/-- The operators of bash. -/
def isOperator (text : List Char) : Bool :=
  ["&", "|", ";", "<", ">", "(", ")", "\n", "&&", "||", ";;", "<<", ">>", "<&", ">&", "<>", "<<-", ">|",
    "|&", ";&", ";;&", "<<<", "&>", "&>>"].contains (String.ofList text)

/-- Whether a `$` before this text begins an expansion, in double quotes too. -/
def expands : List Char → Bool
  | [] => false
  | c :: _ => c.isAlphanum || "_@*#?-$!([\x7b".toList.contains c

/-- Outside quotes, a `$` before a quote belongs to the quote. -/
def expandsBare (rest : List Char) : Bool :=
  expands rest || rest.head? = some apostrophe || rest.head? = some quotationMark

/-- The next character of a word. An expansion, or a line that goes on after a newline,
has no tokens here. -/
def extendWord (glyphs : List Glyph) (c : Char) (rest : List Char) : Option LexPlace :=
  if c = apostrophe then some (.word (glyphs ++ [.quote c]) .single)
  else if c = quotationMark then some (.word (glyphs ++ [.quote c]) .double)
  else if c = '\\' then some (.word (glyphs ++ [.quote c]) .escaped)
  else if c = backquote || (c = '$' && expandsBare rest) then none
  else some (.word (glyphs ++ [.bare c]) .bare)

def beginToken (c : Char) (rest : List Char) : Option LexPlace :=
  if isSeparator c then some .between
  else if isOperatorChar c then some (.operator [c])
  else if c = '#' then some .comment
  else extendWord [] c rest

def isDigitGlyph : Glyph → Bool
  | .bare c => c.isDigit
  | _ => false

def Glyph.char : Glyph → Char
  | .bare c | .quoted c | .quote c => c

/-- Digits right before a redirection are the number of a file descriptor. -/
def closeBefore (glyphs : List Glyph) (c : Char) : Token :=
  if (c = '<' || c = '>') && glyphs.all isDigitGlyph then .ioNumber (glyphs.map Glyph.char) else .word glyphs

def lexStep (place : LexPlace) (c : Char) (rest : List Char) : Option (List Token × LexPlace) :=
  match place with
  | .between => (beginToken c rest).map ([], ·)
  | .comment => some ([], if c = '\n' then .operator [c] else .comment)
  | .operator text =>
    if isOperator (text ++ [c]) then some ([], .operator (text ++ [c]))
    else (beginToken c rest).map ([.operator text], ·)
  | .word glyphs .bare =>
    if isSeparator c then some ([.word glyphs], .between)
    else if isOperatorChar c then some ([closeBefore glyphs c], .operator [c])
    else (extendWord glyphs c rest).map ([], ·)
  | .word glyphs .single =>
    some ([], if c = apostrophe then .word (glyphs ++ [.quote c]) .bare else .word (glyphs ++ [.quoted c]) .single)
  | .word glyphs .double =>
    if c = quotationMark then some ([], .word (glyphs ++ [.quote c]) .bare)
    else if c = '\\' then some ([], .word (glyphs ++ [.quote c]) .doubleEscaped)
    else if c = backquote || (c = '$' && expands rest) then none
    else some ([], .word (glyphs ++ [.quoted c]) .double)
  | .word glyphs .escaped =>
    if c = '\n' then none else some ([], .word (glyphs ++ [.quoted c]) .bare)
  | .word glyphs .doubleEscaped =>
    if c = '\n' then none else some ([], .word (glyphs ++ [.quoted c]) .double)

def lexEnd : LexPlace → Option (List Token)
  | .between | .comment => some []
  | .operator text => some [.operator text]
  | .word glyphs .bare => some [.word glyphs]
  | .word _ _ => none

def lex : LexPlace → List Char → Option (List Token)
  | place, [] => lexEnd place
  | place, c :: rest => (lexStep place c rest).bind fun (tokens, next) => (lex next rest).map (tokens ++ ·)

def tokens (line : String) : Option (List Token) := lex .between line.toList

/-- Some `$` of the text begins an expansion. -/
def opens : List Char → Bool
  | [] => false
  | c :: rest => (c = '$' && expandsBare rest) || opens rest

/-- A text that goes into a word as it is. -/
def isVerbatim (text : List Char) : Bool := text.all stands && !opens text

/-- A text that is read as the word it is. -/
def isVerbatimWord (text : List Char) : Bool := isVerbatim text && text ≠ [] && text.head? ≠ some '#'

def bareWord (text : List Char) : List Glyph := text.map .bare

/-- What is left of a word when its quotes are removed. -/
def wordText (glyphs : List Glyph) : String :=
  String.ofList (glyphs.filterMap fun | .bare c | .quoted c => some c | .quote _ => none)

/-- What becomes of a word after the line is taken apart, by the expansion of braces, of a
tilde at its beginning and of pathnames. That is up to the users and the files there are. -/
structure Expansion where
  expand : List Glyph → List String
  plain : ∀ glyphs, (∀ c, .bare c ∈ glyphs → isPattern c = false ∧ c ≠ openBrace) → glyphs.head? ≠ some (.bare '~') →
    expand glyphs = [wordText glyphs]

def isSimple : List Token → Bool
  | [] => true
  | [.operator ['\n']] => true
  | .word _ :: rest => isSimple rest
  | .ioNumber _ :: .operator ['>'] :: .word _ :: rest => isSimple rest
  | _ => false

/-- A line is the intended simple command, and no word of it becomes another one or
several. -/
structure Runs (shell : Expansion) (line : String) (intended : List Token) : Prop where
  parsed : tokens line = some intended
  simple : isSimple intended = true
  words : ∀ glyphs, .word glyphs ∈ intended → shell.expand glyphs = [wordText glyphs]

section Emission

structure SoundWord (glyphs : List Glyph) : Prop where
  nonempty : glyphs ≠ []
  plain : ∀ c, .bare c ∈ glyphs → stands c = true
  comment : glyphs.head? ≠ some (.bare '#')

def LexPlace.Sound : LexPlace → Prop
  | .word glyphs _ => SoundWord glyphs
  | _ => True

theorem SoundWord.snoc (sound : SoundWord glyphs) (fine : ∀ c, glyph = .bare c → stands c = true) :
    SoundWord (glyphs ++ [glyph]) where
  nonempty := by simp
  plain c member := by
    rcases List.mem_append.mp member with old | new
    · exact sound.plain c old
    · exact fine c (List.mem_singleton.mp new).symm
  comment := by
    rw [List.head?_append_of_ne_nil _ sound.nonempty]
    exact sound.comment

theorem SoundWord.single (fine : ∀ c, glyph = .bare c → stands c = true ∧ c ≠ '#') : SoundWord [glyph] where
  nonempty := by simp
  plain c member := (fine c (List.mem_singleton.mp member).symm).1
  comment same := (fine '#' (by simpa using same)).2 rfl

/-- All that `extendWord` can do. -/
theorem extendWord_cases (read : extendWord glyphs c rest = some place) :
    (∃ quoting, place = .word (glyphs ++ [.quote c]) quoting) ∨
      (place = .word (glyphs ++ [.bare c]) .bare ∧ c ≠ apostrophe ∧ c ≠ quotationMark ∧ c ≠ '\\' ∧ c ≠ backquote) := by
  unfold extendWord at read
  split at read
  · exact .inl ⟨_, (Option.some.inj read).symm⟩
  · split at read
    · exact .inl ⟨_, (Option.some.inj read).symm⟩
    · split at read
      · exact .inl ⟨_, (Option.some.inj read).symm⟩
      · split at read
        · exact absurd read (by simp)
        · rename_i active
          simp only [Bool.or_eq_true, decide_eq_true_eq, not_or] at active
          exact .inr ⟨(Option.some.inj read).symm, by assumption, by assumption, by assumption, active.1⟩

theorem beginToken_sound (read : beginToken c rest = some place) : place.Sound := by
  unfold beginToken at read
  split at read
  · cases read; trivial
  · split at read
    · cases read; trivial
    · split at read
      · cases read; trivial
      · rename_i separator operator comment
        rcases extendWord_cases read with ⟨quoting, rfl⟩ | ⟨rfl, plain⟩
        · exact SoundWord.single fun c same => Glyph.noConfusion same
        · refine SoundWord.single fun d same => ?_
          cases same
          exact ⟨by simp [stands, separator, operator, plain], comment⟩

theorem SoundWord.quoted (kept : SoundWord glyphs) (d : Char) :
    SoundWord (glyphs ++ [.quoted d]) ∧ SoundWord (glyphs ++ [.quote d]) :=
  ⟨kept.snoc fun _ same => Glyph.noConfusion same, kept.snoc fun _ same => Glyph.noConfusion same⟩

theorem lexStep_bare_sound (kept : SoundWord glyphs) (read : lexStep (.word glyphs .bare) c rest = some (ts, next)) :
    next.Sound ∧ ∀ other, .word other ∈ ts → SoundWord other := by
  simp only [lexStep] at read
  split at read
  · cases read
    exact ⟨trivial, by simpa using kept⟩
  · split at read
    · cases read
      refine ⟨trivial, fun other member => ?_⟩
      rw [List.mem_singleton, closeBefore] at member
      split at member
      · cases member
      · cases member; exact kept
    · obtain ⟨place, first, same⟩ := Option.map_eq_some_iff.mp read
      cases same
      refine ⟨?_, by simp⟩
      rename_i separator operator
      rcases extendWord_cases first with ⟨quoting, rfl⟩ | ⟨rfl, plain⟩
      · exact (kept.quoted c).2
      · refine kept.snoc fun d same => ?_
        cases same
        simp [stands, separator, operator, plain]

theorem lexStep_quoted_sound (kept : SoundWord glyphs) (inside : quoting ≠ .bare)
    (read : lexStep (.word glyphs quoting) c rest = some (ts, next)) : next.Sound ∧ ts = [] := by
  obtain ⟨quoted, quote⟩ := kept.quoted c
  cases quoting with
  | bare => exact absurd rfl inside
  | single =>
    cases read
    refine ⟨?_, rfl⟩
    split
    · exact quote
    · exact quoted
  | double =>
    simp only [lexStep] at read
    split at read
    · cases read; exact ⟨quote, rfl⟩
    · split at read
      · cases read; exact ⟨quote, rfl⟩
      · split at read
        · cases read
        · cases read; exact ⟨quoted, rfl⟩
  | escaped | doubleEscaped =>
    simp only [lexStep] at read
    split at read
    · cases read
    · cases read; exact ⟨quoted, rfl⟩

/-- One character adds sound words only, and goes on with one. -/
theorem lexStep_sound (sound : place.Sound) (read : lexStep place c rest = some (ts, next)) :
    next.Sound ∧ ∀ glyphs, .word glyphs ∈ ts → SoundWord glyphs := by
  cases place with
  | between =>
    obtain ⟨place, first, same⟩ := Option.map_eq_some_iff.mp read
    cases same
    exact ⟨beginToken_sound first, by simp⟩
  | comment =>
    cases read
    refine ⟨?_, by simp⟩
    split <;> trivial
  | operator text =>
    simp only [lexStep] at read
    split at read
    · cases read
      exact ⟨trivial, by simp⟩
    · obtain ⟨place, first, same⟩ := Option.map_eq_some_iff.mp read
      cases same
      exact ⟨beginToken_sound first, by simp⟩
  | word glyphs quoting =>
    by_cases bare : quoting = .bare
    · subst bare
      exact lexStep_bare_sound sound read
    · obtain ⟨goes, rfl⟩ := lexStep_quoted_sound sound bare read
      exact ⟨goes, by simp⟩

theorem lex_sound (sound : place.Sound) (read : lex place chars = some ts) : ∀ glyphs, .word glyphs ∈ ts → SoundWord glyphs := by
  induction chars generalizing place ts with
  | nil =>
    intro glyphs member
    cases place with
    | word own quoting =>
      cases quoting with
      | bare => cases read; cases List.mem_singleton.mp member; exact sound
      | _ => cases read
    | _ => cases read; simp at member
  | cons c rest ih =>
    obtain ⟨⟨first, next⟩, stepped, later⟩ := Option.bind_eq_some_iff.mp read
    obtain ⟨others, readRest, rfl⟩ := Option.map_eq_some_iff.mp later
    obtain ⟨soundNext, soundFirst⟩ := lexStep_sound sound stepped
    intro glyphs member
    rcases List.mem_append.mp member with old | new
    · exact soundFirst glyphs old
    · exact ih soundNext readRest glyphs new

end Emission

section Verbatim

theorem expandsBare_append (closed : expandsBare rest = false) (text : List Char) :
    expandsBare (text ++ rest) = expandsBare text := by
  cases text with
  | nil => exact closed
  | cons c later => rfl

/-- Characters that stand for themselves are read one by one up to the first expansion. -/
theorem lex_stands (text : List Char) (plain : text.all stands = true) (closed : expandsBare rest = false)
    (glyphs : List Glyph) :
    lex (.word glyphs .bare) (text ++ rest) =
      if opens text then none else lex (.word (glyphs ++ bareWord text) .bare) rest := by
  induction text generalizing glyphs with
  | nil => simp [opens, bareWord]
  | cons c later ih =>
    rw [List.all_cons, Bool.and_eq_true] at plain
    obtain ⟨standing, tail⟩ := plain
    obtain ⟨separator, operator, single, double, escape, substitution⟩ := stands_iff.mp standing
    have next := expandsBare_append closed later
    cases expansion : (c = '$' && expandsBare later : Bool) with
    | true => simp [lex, lexStep, extendWord, separator, operator, single, double, escape, next, opens, expansion]
    | false =>
      have rest := ih tail (glyphs ++ [.bare c])
      simp [lex, lexStep, extendWord, separator, operator, single, double, escape, substitution, next, opens, expansion, rest,
        bareWord]

theorem sound_bareWord_iff (text : List Char) :
    SoundWord (bareWord text) ↔ text.all stands = true ∧ text ≠ [] ∧ text.head? ≠ some '#' := by
  have head : (bareWord text).head? ≠ some (.bare '#') ↔ text.head? ≠ some '#' := by
    cases text with
    | nil => simp [bareWord]
    | cons d later => simp [bareWord]
  constructor
  · intro sound
    refine ⟨List.all_eq_true.mpr fun c member => sound.plain c (List.mem_map_of_mem member), ?_,
      head.mp sound.comment⟩
    rintro rfl
    exact sound.nonempty rfl
  · rintro ⟨plain, nonempty, comment⟩
    refine ⟨by simpa [bareWord] using nonempty, fun c member => ?_, head.mpr comment⟩
    obtain ⟨d, listed, same⟩ := List.mem_map.mp member
    cases same
    exact List.all_eq_true.mp plain c listed

/-- A word is read as it is written exactly if its text is verbatim. -/
theorem lex_word_iff (closed : expandsBare rest = false) :
    lex .between (text ++ rest) = some (.word (bareWord text) :: later) ↔
      isVerbatimWord text = true ∧
        lex (.word (bareWord text) .bare) rest = some (.word (bareWord text) :: later) := by
  have forward : ∀ c tail, text = c :: tail → SoundWord (bareWord text) →
      lex .between (text ++ rest) = if opens text then none else lex (.word (bareWord text) .bare) rest := by
    rintro c tail rfl sound
    obtain ⟨plain, -, comment⟩ := (sound_bareWord_iff _).mp sound
    rw [List.all_cons, Bool.and_eq_true] at plain
    obtain ⟨standing, tailPlain⟩ := plain
    obtain ⟨separator, operator, single, double, escape, substitution⟩ := stands_iff.mp standing
    have begins : c ≠ '#' := by simpa using comment
    have next := expandsBare_append closed tail
    have rest := lex_stands tail tailPlain closed [.bare c]
    cases expansion : (c = '$' && expandsBare tail : Bool) with
    | true =>
      simp [lex, lexStep, beginToken, extendWord, separator, operator, begins, single, double, escape, next, opens, expansion]
    | false =>
      simp [lex, lexStep, beginToken, extendWord, separator, operator, begins, single, double, escape, substitution, next,
        opens, expansion, rest, bareWord]
  constructor
  · intro read
    have sound := lex_sound (show LexPlace.Sound .between from trivial) read (bareWord text) List.mem_cons_self
    obtain ⟨plain, nonempty, starts⟩ := (sound_bareWord_iff _).mp sound
    obtain ⟨c, tail, split⟩ := List.exists_cons_of_ne_nil nonempty
    rw [forward c tail split sound] at read
    cases expansion : opens text with
    | true => rw [expansion] at read; cases read
    | false =>
      rw [expansion] at read
      exact ⟨by simp [isVerbatimWord, isVerbatim, plain, expansion, nonempty, starts], read⟩
  · rintro ⟨verbatim, read⟩
    simp only [isVerbatimWord, isVerbatim, Bool.and_eq_true, Bool.not_eq_true', decide_eq_true_eq] at verbatim
    obtain ⟨⟨⟨plain, expansion⟩, nonempty⟩, comment⟩ := verbatim
    obtain ⟨c, tail, split⟩ := List.exists_cons_of_ne_nil nonempty
    rw [forward c tail split ((sound_bareWord_iff _).mpr ⟨plain, nonempty, comment⟩), expansion]
    exact read

structure LineTail (rest : List Char) (later : List Token) : Prop where
  closed : expandsBare rest = false
  reads : ∀ glyphs, lex (.word glyphs .bare) rest = some (.word glyphs :: later)

def spaced : List String → String
  | [] => ""
  | [text] => text
  | text :: next :: more => text ++ (" " ++ spaced (next :: more))

/-- A line is read as the words it is written from exactly if each of them is verbatim. -/
theorem lex_words_iff (tail : LineTail rest later) (texts : List String) (nonempty : texts ≠ []) :
    lex .between ((spaced texts).toList ++ rest) = some (texts.map (fun text => .word (bareWord text.toList)) ++ later) ↔
      ∀ text ∈ texts, isVerbatimWord text.toList = true := by
  induction texts with
  | nil => exact absurd rfl nonempty
  | cons text more ih =>
    cases more with
    | nil =>
      rw [spaced, List.map_singleton, List.singleton_append, lex_word_iff tail.closed]
      simp [tail.reads]
    | cons next more =>
      have split : (spaced (text :: next :: more)).toList ++ rest =
          text.toList ++ ' ' :: ((spaced (next :: more)).toList ++ rest) := by
        rw [spaced, String.toList_append, String.toList_append, List.append_assoc]
        rfl
      rw [split, List.map_cons, List.cons_append, lex_word_iff rfl]
      have blank : lex (.word (bareWord text.toList) .bare) (' ' :: ((spaced (next :: more)).toList ++ rest)) =
          (lex .between ((spaced (next :: more)).toList ++ rest)).map (.word (bareWord text.toList) :: ·) := rfl
      have rest := ih (List.cons_ne_nil _ _)
      rw [blank, List.forall_mem_cons, ← rest]
      refine and_congr_right fun _ => ⟨fun read => ?_, fun read => by rw [read]; rfl⟩
      obtain ⟨others, found, same⟩ := Option.map_eq_some_iff.mp read
      rw [found, (List.cons.inj same).2]

theorem wordText_bareWord (text : List Char) : wordText (bareWord text) = String.ofList text := by
  induction text with
  | nil => rfl
  | cons c rest ih => simp [wordText, bareWord]

theorem isVerbatim_append (plain : first.all isOrdinary = true) (second : List Char) :
    isVerbatim (first ++ second) = isVerbatim second := by
  induction first with
  | nil => rfl
  | cons c rest ih =>
    rw [List.all_cons, Bool.and_eq_true] at plain
    obtain ⟨standing, other, -⟩ := ordinary_iff.mp plain.1
    rw [← ih plain.2]
    simp [isVerbatim, opens, standing, other]

theorem isVerbatim_of_ordinary (plain : text.all isOrdinary = true) : isVerbatim text = true := by
  have whole := isVerbatim_append plain []
  rwa [List.append_nil] at whole

/-- A text after a plain word is read as part of the word if it is verbatim. -/
theorem isVerbatimWord_append (plain : isPlainWord first = true) (second : List Char) :
    isVerbatimWord (first ++ second) = isVerbatim second := by
  cases first with
  | nil => simp [isPlainWord] at plain
  | cons c rest =>
    simp only [isPlainWord, Bool.and_eq_true, decide_eq_true_eq, List.head?_cons, ne_eq, Option.some.injEq] at plain
    rw [isVerbatimWord, isVerbatim_append plain.1.1.1]
    simp [plain.1.2]

theorem isVerbatimWord_of_plain (plain : isPlainWord text = true) : isVerbatimWord text = true := by
  have whole := isVerbatimWord_append plain []
  rwa [List.append_nil] at whole

theorem Expansion.expand_plain (shell : Expansion) (plain : isPlainWord text = true) :
    shell.expand (bareWord text) = [String.ofList text] := by
  simp only [isPlainWord, Bool.and_eq_true, decide_eq_true_eq] at plain
  rw [shell.plain (bareWord text), wordText_bareWord]
  · intro c member
    obtain ⟨d, listed, same⟩ := List.mem_map.mp member
    cases same
    exact (ordinary_iff.mp (List.all_eq_true.mp plain.1.1.1 c listed)).2.2
  · cases text with
    | nil => simp [bareWord]
    | cons d later => simpa [bareWord] using plain.2

end Verbatim

end Posix
