import InfixOS.Dagger.Naming
import InfixOS.IetfSystem.Callbacks
import InfixOS.Netdag.Generate
import InfixOS.Posix.Tokens

/-! The command lines that confd builds from strings of the configuration. -/
namespace Core
open Posix Dagger

/-- The action of `dagger_fopen`. -/
inductive Stage where
  | init
  | exit
  deriving DecidableEq, Repr

def Stage.name : Stage → String
  | .init => "init"
  | .exit => "exit"

/-- The calls of systemf and popenf with a name or a timezone. -/
inductive ShellCall where
  | daggerFopen (gen : Int) (action : Stage) (node : String)
  | daggerAddDep (next : Int) (depender dependee : String)
  | daggerAddNode (next : Int) (node : String)
  | ifaceIsPhys (ifname : String)
  | addrFlush (proto : Netdag.Family) (ifname : String)
  | changeClock (timezone : String)
  deriving DecidableEq, Repr

namespace ShellCall

/-- The base directory of the network dagger. -/
def netdag : String := "/run/net"

/-- `proto[3]`. -/
def protoDigit : Netdag.Family → String
  | .ipv4 => "4"
  | .ipv6 => "6"

/-- The line that the shell gets. -/
def line : ShellCall → String
  | .daggerFopen gen action node => "mkdir -p " ++ netdag ++ "/" ++ genName gen ++ "/action/" ++ action.name ++ "/" ++ node
  | .daggerAddDep next depender dependee => "ln -s ../" ++ dependee ++ " " ++ netdag ++ "/" ++ genName next ++ "/dag/" ++ depender
  | .daggerAddNode next node => "mkdir -p " ++ netdag ++ "/" ++ genName next ++ "/dag/" ++ node
  | .ifaceIsPhys ifname => "ip -d -j link show dev " ++ ifname ++ " 2>/dev/null"
  | .addrFlush proto ifname => "ip -" ++ protoDigit proto ++ " addr flush dev " ++ ifname ++ "\n"
  | .changeClock timezone => IetfSystem.linkLine timezone

/-- The words it is meant to have. -/
def words : ShellCall → List String
  | .daggerFopen gen action node => ["mkdir", "-p", netdag ++ "/" ++ genName gen ++ "/action/" ++ action.name ++ "/" ++ node]
  | .daggerAddDep next depender dependee => ["ln", "-s", "../" ++ dependee, netdag ++ "/" ++ genName next ++ "/dag/" ++ depender]
  | .daggerAddNode next node => ["mkdir", "-p", netdag ++ "/" ++ genName next ++ "/dag/" ++ node]
  | .ifaceIsPhys ifname => ["ip", "-d", "-j", "link", "show", "dev", ifname]
  | .addrFlush proto ifname => ["ip", "-" ++ protoDigit proto, "addr", "flush", "dev", ifname]
  | .changeClock timezone => ["ln", "-s", IetfSystem.zoneinfo ++ timezone, "/etc/localtime+"]

/-- What follows the words. -/
def tail : ShellCall → String
  | .ifaceIsPhys _ => " 2>/dev/null"
  | .addrFlush _ _ => "\n"
  | _ => ""

def tailTokens : ShellCall → List Token
  | .ifaceIsPhys _ => [.ioNumber ['2'], .operator ['>'], .word (bareWord "/dev/null".toList)]
  | .addrFlush _ _ => [.operator ['\n']]
  | _ => []

def intended (call : ShellCall) : List Token :=
  call.words.map (fun word => .word (bareWord word.toList)) ++ call.tailTokens

/-- The strings of the configuration that are parts of words. -/
def parts : ShellCall → List String
  | .daggerFopen _ _ node | .daggerAddNode _ node => [node]
  | .daggerAddDep _ depender dependee => [depender, dependee]
  | .changeClock timezone => [timezone]
  | _ => []

/-- The strings of the configuration that are words. -/
def whole : ShellCall → List String
  | .ifaceIsPhys ifname | .addrFlush _ ifname => [ifname]
  | _ => []

/-- The shell leaves the strings as they are: they hold no blank, quote, operator or `$`
that begins an expansion, a whole word is not empty and does not start with `#`, and no
word becomes another one, or several, by the expansion of braces, a tilde or a pattern. -/
structure Safe (shell : Expansion) (call : ShellCall) : Prop where
  parts : ∀ text ∈ call.parts, isVerbatim text.toList = true
  whole : ∀ text ∈ call.whole, isVerbatimWord text.toList = true
  unchanged : ∀ word ∈ call.words, shell.expand (bareWord word.toList) = [word]

/-- All strings consist of ordinary characters. -/
structure Ordinary (call : ShellCall) : Prop where
  parts : ∀ text ∈ call.parts, text.toList.all isOrdinary = true
  whole : ∀ text ∈ call.whole, isPlainWord text.toList = true

theorem line_eq (call : ShellCall) : call.line = spaced call.words ++ call.tail := by
  have mkdir : "mkdir -p " = "mkdir" ++ (" " ++ ("-p" ++ " ")) := by decide +kernel
  have ln : "ln -s ../" = "ln" ++ (" " ++ ("-s" ++ (" " ++ "../"))) := by decide +kernel
  have show' : "ip -d -j link show dev " =
      "ip" ++ (" " ++ ("-d" ++ (" " ++ ("-j" ++ (" " ++ ("link" ++ (" " ++ ("show" ++ (" " ++ ("dev" ++ " ")))))))))) := by
    decide +kernel
  have ip : "ip -" = "ip" ++ (" " ++ "-") := by decide +kernel
  have flush : " addr flush dev " = " " ++ ("addr" ++ (" " ++ ("flush" ++ (" " ++ ("dev" ++ " "))))) := by decide +kernel
  have zone : "ln -s /usr/share/zoneinfo/" = "ln" ++ (" " ++ ("-s" ++ (" " ++ IetfSystem.zoneinfo))) := by decide +kernel
  have closing : " /etc/localtime+" = " " ++ "/etc/localtime+" := by decide +kernel
  cases call with
  | daggerFopen gen action node =>
    change "mkdir -p " ++ netdag ++ "/" ++ genName gen ++ "/action/" ++ action.name ++ "/" ++ node = _
    rw [mkdir]
    simp only [words, tail, spaced, String.append_assoc, String.append_empty]
  | daggerAddDep next depender dependee =>
    change "ln -s ../" ++ dependee ++ " " ++ netdag ++ "/" ++ genName next ++ "/dag/" ++ depender = _
    rw [ln]
    simp only [words, tail, spaced, String.append_assoc, String.append_empty]
  | daggerAddNode next node =>
    change "mkdir -p " ++ netdag ++ "/" ++ genName next ++ "/dag/" ++ node = _
    rw [mkdir]
    simp only [words, tail, spaced, String.append_assoc, String.append_empty]
  | ifaceIsPhys ifname =>
    change "ip -d -j link show dev " ++ ifname ++ " 2>/dev/null" = _
    rw [show']
    simp only [words, tail, spaced, String.append_assoc]
  | addrFlush proto ifname =>
    change "ip -" ++ protoDigit proto ++ " addr flush dev " ++ ifname ++ "\n" = _
    rw [ip, flush]
    simp only [words, tail, spaced, String.append_assoc]
  | changeClock timezone =>
    change "ln -s /usr/share/zoneinfo/" ++ timezone ++ " /etc/localtime+" = _
    rw [zone, closing]
    simp only [words, tail, spaced, String.append_assoc, String.append_empty]

theorem tail_reads (call : ShellCall) : LineTail call.tail.toList call.tailTokens := by
  cases call with
  | ifaceIsPhys ifname =>
    have redirected : lex .between "2>/dev/null".toList =
      some [.ioNumber ['2'], .operator ['>'], .word (bareWord "/dev/null".toList)] := by decide +kernel
    refine ⟨show expandsBare " 2>/dev/null".toList = false by decide, fun glyphs => ?_⟩
    have blank : lex (.word glyphs .bare) " 2>/dev/null".toList =
      (lex .between "2>/dev/null".toList).map (.word glyphs :: ·) := rfl
    rw [tail, blank, redirected]
    rfl
  | addrFlush proto ifname =>
    exact ⟨show expandsBare "\n".toList = false by decide, fun glyphs => by
      simp [tail, tailTokens, lex, lexStep, isSeparator, isOperatorChar, closeBefore, lexEnd]⟩
  | _ => exact ⟨rfl, fun glyphs => rfl⟩

/-- The path of a generation, and what is below it, is a plain word. -/
theorem netdag_stem (gen : Int) (ordinary : middle.toList.all isOrdinary = true) :
    isPlainWord (netdag ++ "/" ++ genName gen ++ middle).toList = true := by
  rw [String.toList_append, String.toList_append]
  exact plainWord_append (plainWord_append (by decide +kernel) (genName_ordinary gen)) ordinary

section Words

variable {call : ShellCall} {word text : String}

/-- A word of a line is fixed, or a fixed beginning with a string after it, or a string. -/
theorem words_cases (member : word ∈ call.words) : isPlainWord word.toList = true ∨
    (∃ stem text, isPlainWord stem.toList = true ∧ text ∈ call.parts ∧ word = stem ++ text) ∨ word ∈ call.whole := by
  have dag : "/dag/".toList.all isOrdinary = true := by decide +kernel
  cases call with
  | daggerFopen gen action node =>
    have middle : ("/action/" ++ action.name ++ "/").toList.all isOrdinary = true := by cases action <;> decide +kernel
    simp only [words, List.mem_cons, List.not_mem_nil, or_false] at member
    rcases member with rfl | rfl | rfl
    · exact .inl (by decide +kernel)
    · exact .inl (by decide +kernel)
    · exact .inr (.inl ⟨_, node, netdag_stem gen middle, List.mem_singleton_self _, by simp only [String.append_assoc]⟩)
  | daggerAddDep next depender dependee =>
    simp only [words, List.mem_cons, List.not_mem_nil, or_false] at member
    rcases member with rfl | rfl | rfl | rfl
    · exact .inl (by decide +kernel)
    · exact .inl (by decide +kernel)
    · exact .inr (.inl ⟨"../", dependee, by decide +kernel, by simp [parts], rfl⟩)
    · exact .inr (.inl ⟨_, depender, netdag_stem next dag, by simp [parts], rfl⟩)
  | daggerAddNode next node =>
    simp only [words, List.mem_cons, List.not_mem_nil, or_false] at member
    rcases member with rfl | rfl | rfl
    · exact .inl (by decide +kernel)
    · exact .inl (by decide +kernel)
    · exact .inr (.inl ⟨_, node, netdag_stem next dag, List.mem_singleton_self _, rfl⟩)
  | ifaceIsPhys ifname =>
    have fixed : ∀ word ∈ ["ip", "-d", "-j", "link", "show", "dev"], isPlainWord word.toList = true := by decide +kernel
    rcases List.mem_append.mp (show word ∈ ["ip", "-d", "-j", "link", "show", "dev"] ++ [ifname] from member) with first | last
    · exact .inl (fixed word first)
    · exact .inr (.inr last)
  | addrFlush proto ifname =>
    have fixed : ∀ word ∈ ["ip", "-" ++ protoDigit proto, "addr", "flush", "dev"], isPlainWord word.toList = true := by
      cases proto <;> decide +kernel
    rcases List.mem_append.mp (show word ∈ ["ip", "-" ++ protoDigit proto, "addr", "flush", "dev"] ++ [ifname] from member)
      with first | last
    · exact .inl (fixed word first)
    · exact .inr (.inr last)
  | changeClock timezone =>
    simp only [words, List.mem_cons, List.not_mem_nil, or_false] at member
    rcases member with rfl | rfl | rfl | rfl
    · exact .inl (by decide +kernel)
    · exact .inl (by decide +kernel)
    · exact .inr (.inl ⟨IetfSystem.zoneinfo, timezone, by decide +kernel, List.mem_singleton_self _, rfl⟩)
    · exact .inl (by decide +kernel)

theorem part_in_word (member : text ∈ call.parts) : ∃ stem, isPlainWord stem.toList = true ∧ stem ++ text ∈ call.words := by
  have dag : "/dag/".toList.all isOrdinary = true := by decide +kernel
  cases call with
  | daggerFopen gen action node =>
    have middle : ("/action/" ++ action.name ++ "/").toList.all isOrdinary = true := by cases action <;> decide +kernel
    obtain rfl := List.mem_singleton.mp member
    exact ⟨_, netdag_stem gen middle, by simp only [words, String.append_assoc, List.mem_cons, true_or, or_true]⟩
  | daggerAddDep next depender dependee =>
    rcases List.mem_pair.mp member with rfl | rfl
    · exact ⟨_, netdag_stem next dag, by simp [words]⟩
    · exact ⟨"../", by decide +kernel, by simp [words]⟩
  | daggerAddNode next node =>
    obtain rfl := List.mem_singleton.mp member
    exact ⟨_, netdag_stem next dag, by simp [words]⟩
  | changeClock timezone =>
    obtain rfl := List.mem_singleton.mp member
    exact ⟨IetfSystem.zoneinfo, by decide +kernel, by simp [words]⟩
  | _ => simp [parts] at member

theorem whole_in_words (member : text ∈ call.whole) : text ∈ call.words := by
  cases call with
  | ifaceIsPhys ifname => exact List.mem_append_right ["ip", "-d", "-j", "link", "show", "dev"] member
  | addrFlush proto ifname => exact List.mem_append_right ["ip", "-" ++ protoDigit proto, "addr", "flush", "dev"] member
  | _ => simp [whole] at member

end Words

theorem words_verbatim_iff (call : ShellCall) :
    (∀ word ∈ call.words, isVerbatimWord word.toList = true) ↔
      (∀ text ∈ call.parts, isVerbatim text.toList = true) ∧ ∀ text ∈ call.whole, isVerbatimWord text.toList = true := by
  constructor
  · refine fun verbatim => ⟨fun text member => ?_, fun text member => verbatim text (whole_in_words member)⟩
    obtain ⟨stem, plain, listed⟩ := part_in_word member
    have read := verbatim _ listed
    rwa [String.toList_append, isVerbatimWord_append plain] at read
  · rintro ⟨parts, whole⟩ word member
    rcases words_cases member with fixed | ⟨stem, text, plain, listed, rfl⟩ | listed
    · exact isVerbatimWord_of_plain fixed
    · rw [String.toList_append, isVerbatimWord_append plain]
      exact parts text listed
    · exact whole word listed

theorem intended_simple (call : ShellCall) : isSimple call.intended = true := by
  cases call <;> rfl

theorem intended_words (call : ShellCall) (shell : Expansion) :
    (∀ glyphs, .word glyphs ∈ call.intended → shell.expand glyphs = [wordText glyphs]) ↔
      ∀ word ∈ call.words, shell.expand (bareWord word.toList) = [word] := by
  have redirected : ∀ glyphs, .word glyphs ∈ call.tailTokens → shell.expand glyphs = [wordText glyphs] := by
    intro glyphs member
    cases call with
    | ifaceIsPhys ifname =>
      have null : glyphs = bareWord "/dev/null".toList := by simpa [tailTokens] using member
      rw [null, shell.expand_plain (by decide +kernel), wordText_bareWord]
    | _ => simp [tailTokens] at member
  have text : ∀ word : String, wordText (bareWord word.toList) = word := fun word => by
    rw [wordText_bareWord, String.ofList_toList]
  constructor
  · intro kept word member
    have own := kept (bareWord word.toList) (List.mem_append_left _ (List.mem_map_of_mem member))
    rwa [text] at own
  · intro kept glyphs member
    rcases List.mem_append.mp member with named | later
    · obtain ⟨word, listed, same⟩ := List.mem_map.mp named
      cases same
      rw [kept word listed, text]
    · exact redirected glyphs later

/-- Strings of ordinary characters are safe, whatever expansions there are. -/
theorem Ordinary.safe {call : ShellCall} (ordinary : call.Ordinary) (shell : Expansion) : call.Safe shell where
  parts text member := isVerbatim_of_ordinary (ordinary.parts text member)
  whole text member := isVerbatimWord_of_plain (ordinary.whole text member)
  unchanged word member := by
    have plain : isPlainWord word.toList = true := by
      rcases words_cases member with fixed | ⟨stem, text, plain, listed, rfl⟩ | listed
      · exact fixed
      · rw [String.toList_append]
        exact plainWord_append plain (ordinary.parts text listed)
      · exact ordinary.whole word listed
    rw [shell.expand_plain plain, String.ofList_toList]

/-- The shell takes a line as it is meant exactly if the strings in it are safe. In every
shell those of ordinary characters are. -/
theorem runs_iff_safe (shell : Expansion) (call : ShellCall) :
    (Runs shell call.line call.intended ↔ call.Safe shell) ∧ (call.Ordinary → call.Safe shell) := by
  have read : tokens call.line = some call.intended ↔
      (∀ text ∈ call.parts, isVerbatim text.toList = true) ∧ ∀ text ∈ call.whole, isVerbatimWord text.toList = true := by
    rw [tokens, line_eq, String.toList_append, intended,
      lex_words_iff call.tail_reads call.words (by cases call <;> exact List.cons_ne_nil _ _), words_verbatim_iff]
  refine ⟨⟨?_, ?_⟩, fun ordinary => ordinary.safe shell⟩
  · intro runs
    obtain ⟨parts, whole⟩ := read.mp runs.parsed
    exact ⟨parts, whole, (call.intended_words shell).mp runs.words⟩
  · intro safe
    exact ⟨read.mpr ⟨safe.parts, safe.whole⟩, call.intended_simple, (call.intended_words shell).mpr safe.unchanged⟩

/-- The part after the semicolon of an interface's name is executed. -/
theorem name_executed :
    tokens (line (.daggerAddNode 1 "a;reboot")) =
        some [.word (bareWord "mkdir".toList), .word (bareWord "-p".toList), .word (bareWord "/run/net/1/dag/a".toList),
          .operator [';'], .word (bareWord "reboot".toList)] ∧
      ∀ shell, ¬Runs shell (line (.daggerAddNode 1 "a;reboot")) (intended (.daggerAddNode 1 "a;reboot")) := by
  have read : tokens (line (.daggerAddNode 1 "a;reboot")) =
      some [.word (bareWord "mkdir".toList), .word (bareWord "-p".toList), .word (bareWord "/run/net/1/dag/a".toList),
        .operator [';'], .word (bareWord "reboot".toList)] := by decide +kernel
  refine ⟨read, fun shell runs => ?_⟩
  have same := read.symm.trans runs.parsed
  exact absurd (congrArg (Option.map List.length) same) (by decide +kernel)

end ShellCall

end Core
