import InfixOS.NetTool.Activation
import InfixOS.Numeral.Scan
import InfixOS.Posix.CommandLine

/-! `net up` and `net down` of src/net/src/main.c, over any history of such commands.
The file admin-state of an interface is looked up twice, by a path that is built anew
each time into a buffer of 128 bytes. -/
namespace NetTool.AdminState
open Exec Posix Numeral

/-- NET_DIR, and what the system makes of the calls of the tool. -/
structure Site where
  net : String
  /-- What is enumerated of a directory. -/
  entries : String → List String
  /-- Whether fopen(3) opens a file for writing. -/
  writable : String → Bool
  /-- The status of the last of the commands that have been given. -/
  system : List String → Int

/-- The files that can be read, and the commands so far with their status. -/
structure State where
  files : String → Option Text
  sent : List (String × Int)

abbrev Tool := Program Nat State

def snprintf (size : Nat) (text : String) : String := String.ofList (text.toList.take (size - 1))

def isSpace (c : Char) : Bool := " \t\n\x0b\x0c\r".toList.contains c

/-- `(int) strtol(text, NULL, 10)`. -/
def atoi (text : Text) : Int :=
  let value : Int :=
    match text.dropWhile isSpace with
    | '-' :: digits => -(scan 10 digits 0)
    | '+' :: digits => scan 10 digits 0
    | digits => scan 10 digits 0
  Int.bmod (max (-2 ^ 63) (min value (2 ^ 63 - 1))) (2 ^ 32)

def getpath (site : Site) : Tool String := do
  let s ← Program.read
  match s.files (site.net ++ "/gen") with
  | none => Program.fail 1
  | some text =>
    match (cut (fun part => part.length + 1 = 40) [] text).head? with
    | none => Program.fail 1
    | some buf => pure (site.net ++ "/" ++ toString (atoi buf))

def getifs (site : Site) : Tool (List String) := do
  let path ← getpath site
  pure (((site.entries path).filter dirFilter).map copied)

def ifadmin (site : Site) (ifname : String) (len : Nat) : Tool String := do
  let path ← getpath site
  pure (snprintf len (path ++ "/" ++ ifname ++ "/admin-state"))

def allowed (site : Site) (ifname : String) : Tool Bool := do
  let buf ← ifadmin site ifname 128
  let s ← Program.read
  match s.files buf with
  | none => pure true
  | some text => pure ((fgetsLines 128 text).head? ≠ some "disabled")

def systemf (site : Site) (line : String) : Tool Int := do
  let s ← Program.read
  let status := site.system (s.sent.map Prod.fst ++ [line])
  Program.update fun s => { s with sent := s.sent ++ [(line, status)] }
  pure status

def actionName (updown : Bool) : String := if updown then "up" else "down"

def line (updown : Bool) (ifname : String) : String := "ip link set " ++ ifname ++ " " ++ actionName updown

/-- Write down what a command has done. -/
def note (site : Site) (updown : Bool) (ifname : String) : Tool Unit := do
  let buf ← ifadmin site ifname 128
  Program.onlyIf (site.writable buf) do
    Program.update fun s => { s with files := Function.update s.files buf (some (unlines [actionName updown])) }

/-- The body of the loop over the interfaces. -/
def ifset (site : Site) (updown : Bool) (ifname : String) : Tool Int := do
  let eligible ← allowed site ifname
  if eligible then do
    let result ← systemf site (line updown ifname)
    Program.onlyIf (result = 0) (note site updown ifname)
    pure result
  else pure 0

/-- All interfaces of the generation, unless some are given. -/
def ifaceList (site : Site) (given : List String) : Tool (List String) :=
  if given = [] then getifs site else pure given

def ifupdown (site : Site) (updown : Bool) (given : List String) : Tool Int := do
  let ifaces ← ifaceList site given
  Program.sumOver ifaces (ifset site updown)

/-- One call of the tool, with its arguments. -/
structure Invocation where
  updown : Bool
  args : List String

def invoke (site : Site) (s : State) (inv : Invocation) : State := (ifupdown site inv.updown (inv.args.map copied) s).2

/-- A history of calls. -/
def run (site : Site) (files : String → Option Text) (invs : List Invocation) : State := invs.foldl (invoke site) ⟨files, []⟩

section Meaning

/-- The interface that a command is about: `ip link set [dev] NAME ..` -/
def subject (line : String) : Option String :=
  match commandWords line with
  | some ("ip" :: "link" :: "set" :: "dev" :: name :: _) => some name
  | some ("ip" :: "link" :: "set" :: name :: _) => some name
  | _ => none

/-- What the last successful command on an interface has asked for. -/
def lastOn (ifname : String) (sent : List (String × Int)) : Option String :=
  (sent.filter fun c => subject c.1 = some ifname ∧ c.2 = 0).getLast?.bind fun c =>
    (commandWords c.1).bind List.getLast?

def statePath (site : Site) (gen : Int) (ifname : String) : String :=
  site.net ++ "/" ++ toString gen ++ "/" ++ ifname ++ "/admin-state"

def Says (files : String → Option Text) (path word : String) : Prop :=
  ∃ text, files path = some text ∧ (lines text).head? = some word

/-- What an interface may expect of a history of commands that began with these files. -/
structure Respected (site : Site) (gen : Int) (files : String → Option Text) (t : State) : Prop where
  disabled : ∀ i, Says files (statePath site gen i) "disabled" →
    (∀ c ∈ t.sent, subject c.1 ≠ some i) ∧ Says t.files (statePath site gen i) "disabled"
  last : ∀ i, ¬Says files (statePath site gen i) "disabled" → site.writable (statePath site gen i) = true →
    ∀ word, lastOn i t.sent = some word → (word = "up" ∨ word = "down") ∧ Says t.files (statePath site gen i) word
  rest : ∀ i, lastOn i t.sent = none → t.files (statePath site gen i) = files (statePath site gen i)

/-- A name that the kernel has for interfaces and that a command line leaves as it is. -/
structure Addressable (ifname : String) : Prop where
  named : IsName ifname ∧ ifname ≠ "." ∧ ifname ≠ ".."
  plain : isPlainWord ifname.toList = true
  word : ifname ≠ "dev"

/-- The interfaces that a call goes through. -/
def Invocation.ifaces (inv : Invocation) (site : Site) (gen : Int) : List String :=
  if inv.args = [] then ((site.entries (site.net ++ "/" ++ toString gen)).filter dirFilter).map copied
  else inv.args.map copied

/-- The file gen as it is written, with `%d` and a newline. -/
def Current (site : Site) (gen : Int) (files : String → Option Text) : Prop :=
  files (site.net ++ "/gen") = some (unlines [toString gen]) ∧ -2 ^ 31 ≤ gen ∧ gen < 2 ^ 31

end Meaning

section Command

theorem line_words (updown : Bool) (plain : isPlainWord ifname.toList = true) :
    commandWords (line updown ifname) = some ["ip", "link", "set", ifname, actionName updown] := by
  have text : (line updown ifname).toList = joinWords ["ip", "link", "set", ifname, actionName updown] := by
    simp [line, joinWords]
  have action : isPlainWord (actionName updown).toList = true := by
    cases updown with
    | true => decide
    | false => decide
  rw [commandWords, text]
  apply readWords_join
  intro w member
  simp only [List.mem_cons, List.not_mem_nil, or_false] at member
  rcases member with rfl | rfl | rfl | rfl | rfl
  · decide
  · decide
  · decide
  · exact plain
  · exact action

theorem Addressable.subject_line (name : Addressable ifname) (updown : Bool) : subject (line updown ifname) = some ifname := by
  rw [subject, line_words updown name.plain]
  have other := name.word
  split
  · rename_i dev
    simp only [Option.some.injEq, List.cons.injEq] at dev
    exact absurd dev.2.2.2.1 other
  · rename_i words
    simp only [Option.some.injEq, List.cons.injEq] at words
    rw [words.2.2.2.1]
  · rename_i none
    exact absurd rfl (none ifname [actionName updown])

theorem lastOn_other {line : String} (other : subject line ≠ some i) (sent : List (String × Int)) (rc : Int) :
    lastOn i (sent ++ [(line, rc)]) = lastOn i sent := by
  simp [lastOn, List.filter_append, other]

theorem lastOn_failed (failed : rc ≠ 0) (sent : List (String × Int)) (line : String) :
    lastOn i (sent ++ [(line, rc)]) = lastOn i sent := by
  simp [lastOn, List.filter_append, failed]

theorem Addressable.lastOn_line (name : Addressable ifname) (updown : Bool) (sent : List (String × Int)) :
    lastOn ifname (sent ++ [(line updown ifname, 0)]) = some (actionName updown) := by
  simp [lastOn, List.filter_append, name.subject_line, line_words updown name.plain]

end Command

section Decimal

theorem digits_head (n : Nat) : ∃ c rest, Nat.toDigits 10 n = c :: rest ∧ isSpace c = false ∧ c ≠ '-' ∧ c ≠ '+' := by
  obtain ⟨c, rest, shape⟩ := List.exists_cons_of_ne_nil (Nat.toDigits_ne_nil : Nat.toDigits 10 n ≠ [])
  have digit : c.isDigit = true := Nat.isDigit_of_mem_toDigits (by decide) (by decide) (shape ▸ List.mem_cons_self)
  have other (d : Char) (no : d.isDigit = false) : c ≠ d := by
    rintro rfl
    rw [no] at digit
    cases digit
  refine ⟨c, rest, shape, ?_, other '-' (by decide), other '+' (by decide)⟩
  simp [isSpace, other ' ' (by decide), other '\t' (by decide), other '\n' (by decide), other '\x0b' (by decide),
    other '\x0c' (by decide), other '\r' (by decide)]

theorem scan_digits_newline (n : Nat) : scan 10 (Nat.toDigits 10 n ++ ['\n']) 0 = n := by
  rw [scan_stop (by decide), scan_toDigits (by decide) (by decide)]

/-- What `%d` has written is read back. -/
theorem atoi_decimal (low : -2 ^ 31 ≤ n) (high : n < 2 ^ 31) : atoi ((toString n).toList ++ ['\n']) = n := by
  have clip (value : Int) (same : value = n) : Int.bmod (max (-2 ^ 63) (min value (2 ^ 63 - 1))) (2 ^ 32) = n := by
    rw [same, min_eq_left (by omega), max_eq_right (by omega), Int.bmod_eq_of_le (by omega) (by omega)]
  refine clip _ ?_
  cases n with
  | ofNat n =>
    have text : (toString (Int.ofNat n)).toList = Nat.toDigits 10 n := by
      change (toString n).toList = _
      simp
    have value := scan_digits_newline n
    obtain ⟨c, rest, shape, space, minus, plus⟩ := digits_head n
    rw [text, shape, List.cons_append, List.dropWhile_cons_of_neg (by simp [space])]
    rw [shape, List.cons_append] at value
    split
    · rename_i sign
      exact absurd (List.cons.inj sign).1 minus
    · rename_i sign
      exact absurd (List.cons.inj sign).1 plus
    · rw [value]
      rfl
  | negSucc n =>
    have text : (toString (Int.negSucc n)).toList = '-' :: Nat.toDigits 10 (n + 1) := by
      change ("-" ++ toString (n + 1)).toList = _
      simp
    rw [text, List.cons_append, List.dropWhile_cons_of_neg (by decide)]
    change -((scan 10 (Nat.toDigits 10 (n + 1) ++ ['\n']) 0 : Nat) : Int) = _
    rw [scan_digits_newline]
    rfl

theorem decimal_chars (low : -2 ^ 31 ≤ n) (high : n < 2 ^ 31) :
    (∀ c ∈ (toString n).toList, c.isDigit = true ∨ c = '-') ∧ (toString n).toList.length ≤ 11 := by
  have digits (m : Nat) (small : m < 10 ^ 10) :
      (∀ c ∈ Nat.toDigits 10 m, c.isDigit = true) ∧ (Nat.toDigits 10 m).length ≤ 10 :=
    ⟨fun c member => Nat.isDigit_of_mem_toDigits (by decide) (by decide) member,
      Nat.toDigits_length 10 m 10 (by decide) small⟩
  cases n with
  | ofNat n =>
    have text : (toString (Int.ofNat n)).toList = Nat.toDigits 10 n := by
      change (toString n).toList = _
      simp
    rw [Int.ofNat_eq_natCast] at high
    obtain ⟨chars, short⟩ := digits n (by omega)
    rw [text]
    exact ⟨fun c member => .inl (chars c member), by omega⟩
  | negSucc n =>
    have text : (toString (Int.negSucc n)).toList = '-' :: Nat.toDigits 10 (n + 1) := by
      change ("-" ++ toString (n + 1)).toList = _
      simp
    obtain ⟨chars, short⟩ := digits (n + 1) (by omega)
    rw [text, List.forall_mem_cons]
    exact ⟨⟨.inr rfl, fun c member => .inl (chars c member)⟩, by simp only [List.length_cons]; omega⟩

theorem decimal_plain (low : -2 ^ 31 ≤ n) (high : n < 2 ^ 31) : '\n' ∉ (toString n).toList := by
  intro member
  have char := (decimal_chars low high).1 _ member
  simp at char

theorem decimal_ne_disabled (low : -2 ^ 31 ≤ n) (high : n < 2 ^ 31) : toString n ≠ "disabled" := by
  intro same
  have char := (decimal_chars low high).1 'd' (by rw [same]; decide)
  simp at char

end Decimal

section Lookup
variable {site : Site} {gen : Int} {s : State}

theorem getpath_eq (current : Current site gen s.files) :
    getpath site s = (.ok (site.net ++ "/" ++ toString gen), s) := by
  obtain ⟨text, low, high⟩ := current
  have plain := decimal_plain low high
  have short := (decimal_chars low high).2
  have written : unlines [toString gen] = (toString gen).toList ++ '\n' :: [] := by simp [unlines]
  have first : (cut (fun part => part.length + 1 = 40) [] (unlines [toString gen])).head? =
      some ((toString gen).toList ++ ['\n']) := by
    rw [written, cut_line [] [] plain]
    · rfl
    · intro front back split _
      have length := congrArg List.length split
      rw [List.length_append] at length
      simp only [List.nil_append, decide_eq_false_iff_not]
      omega
  have reading : (Program.read : Tool State) s = (.ok s, s) := rfl
  rw [getpath, Program.bind_eq reading, text]
  simp only [first, atoi_decimal low high]
  rfl

/-- The path of the state as the tool has it. -/
def buffer (site : Site) (gen : Int) (ifname : String) : String := snprintf 128 (statePath site gen ifname)

theorem buffer_short (fits : (statePath site gen i).toList.length ≤ 127) : buffer site gen i = statePath site gen i := by
  rw [buffer, snprintf, List.take_of_length_le fits, String.ofList_toList]

theorem buffer_long (long : ¬(statePath site gen i).toList.length ≤ 127) : buffer site gen i ≠ statePath site gen i := by
  intro same
  have length := congrArg (fun path => path.toList.length) same
  simp only [buffer, snprintf, String.toList_ofList, List.length_take] at length
  omega

theorem ifadmin_eq (current : Current site gen s.files) (ifname : String) :
    ifadmin site ifname 128 s = (.ok (buffer site gen ifname), s) := by
  rw [ifadmin, Program.bind_eq (getpath_eq current)]
  rfl

theorem allowed_eq (current : Current site gen s.files) (ifname : String) :
    ∃ eligible, allowed site ifname s = (.ok eligible, s) ∧
      (eligible = false ↔ Says s.files (buffer site gen ifname) "disabled") := by
  have reading : (Program.read : Tool State) s = (.ok s, s) := rfl
  rw [allowed, Program.bind_eq (ifadmin_eq current ifname), Program.bind_eq reading]
  cases file : s.files (buffer site gen ifname) with
  | none => exact ⟨true, rfl, by simp [Says, file]⟩
  | some text =>
    refine ⟨_, rfl, ?_⟩
    rw [decide_eq_false_iff_not, not_not, fgetsLines_head_iff (by decide)]
    simp [Says, file]

theorem note_eq (current : Current site gen s.files) (updown : Bool) (i : String) :
    note site updown i s = (.ok (), { s with
      files := if site.writable (buffer site gen i) = true then
        Function.update s.files (buffer site gen i) (some (unlines [actionName updown])) else s.files }) := by
  rw [note, Program.bind_eq (ifadmin_eq current i)]
  cases site.writable (buffer site gen i) with
  | true => rfl
  | false => rfl

/-- The state after a command with a certain status, written down at a path. -/
def after (site : Site) (path : String) (updown : Bool) (s : State) (i : String) (rc : Int) : State :=
  { files := if rc = 0 ∧ site.writable path = true then
      Function.update s.files path (some (unlines [actionName updown])) else s.files
    sent := s.sent ++ [(line updown i, rc)] }

theorem after_sent (site : Site) (path : String) (updown : Bool) (s : State) (i : String) (rc : Int) :
    (after site path updown s i rc).sent = s.sent ++ [(line updown i, rc)] := rfl

/-- What is done for one interface. -/
theorem ifset_spec (current : Current site gen s.files) (updown : Bool) (i : String) :
    (Says s.files (buffer site gen i) "disabled" ∧ ifset site updown i s = (.ok 0, s)) ∨
    (¬Says s.files (buffer site gen i) "disabled" ∧
      ∃ rc, ifset site updown i s = (.ok rc, after site (buffer site gen i) updown s i rc)) := by
  obtain ⟨eligible, asked, reads⟩ := allowed_eq current i
  rw [ifset, Program.bind_eq asked]
  cases eligible with
  | false => exact .inl ⟨reads.mp rfl, rfl⟩
  | true =>
    have permitted : ¬Says s.files (buffer site gen i) "disabled" := fun no => by simpa using reads.mpr no
    let rc := site.system (s.sent.map Prod.fst ++ [line updown i])
    let t : State := { s with sent := s.sent ++ [(line updown i, rc)] }
    have sent : systemf site (line updown i) s = (.ok rc, t) := rfl
    refine .inr ⟨permitted, rc, ?_⟩
    rw [if_pos rfl, Program.bind_eq sent, after]
    by_cases ok : rc = 0
    · have still : Current site gen t.files := current
      have noted : Program.onlyIf true (note site updown i) t = _ := note_eq still updown i
      rw [decide_eq_true ok, Program.bind_eq noted]
      by_cases opens : site.writable (buffer site gen i) = true
      · rw [if_pos opens, if_pos ⟨ok, opens⟩]
        rfl
      · rw [if_neg opens, if_neg fun both => opens both.2]
        rfl
    · rw [if_neg fun both => ok both.1, decide_eq_false ok]
      rfl

end Lookup

section History
variable {site : Site} {gen : Int} {files : String → Option Text} {s : State}

theorem statePath_inj : statePath site gen i = statePath site gen j ↔ i = j := by
  rw [statePath, statePath, String.append_left_inj, String.append_right_inj]

theorem statePath_ne_gen (site : Site) (gen : Int) (i : String) : statePath site gen i ≠ site.net ++ "/gen" := by
  intro same
  have last := congrArg (fun path => path.toList.getLast?) same
  have first : "/admin-state".toList.getLast? = some 'e' := by decide
  have second : "/gen".toList.getLast? = some 'n' := by decide
  simp only [statePath, String.toList_append, List.getLast?_append, first, second, Option.some_or] at last
  exact absurd last (by decide)

theorem after_elsewhere (updown : Bool) (s : State) (i : String) (rc : Int) (other : path' ≠ path) :
    (after site path updown s i rc).files path' = s.files path' := by
  rw [after]
  split
  · exact Function.update_of_ne other _ _
  · rfl

theorem after_failed (updown : Bool) (s : State) (i : String) (failed : rc ≠ 0) :
    (after site path updown s i rc).files = s.files := by
  rw [after, if_neg fun both => failed both.1]

theorem after_ok (updown : Bool) (s : State) (i : String) (opens : site.writable path = true) :
    Says (after site path updown s i 0).files path (actionName updown) := by
  rw [after, if_pos ⟨rfl, opens⟩]
  refine ⟨_, Function.update_self .., ?_⟩
  rw [lines_unlines]
  · rfl
  · cases updown with
    | true => decide
    | false => decide

/-- What a history keeps up: the file gen, and what the interfaces may expect. -/
structure Kept (site : Site) (gen : Int) (files : String → Option Text) (s : State) : Prop where
  current : Current site gen s.files
  respected : Respected site gen files s

theorem Kept.start (current : Current site gen files) : Kept site gen files ⟨files, []⟩ where
  current := current
  respected := {
    disabled := fun i said => ⟨by simp, said⟩
    last := fun i _ _ word none => by cases none
    rest := fun i _ => rfl }

/-- A command on an interface that is not disabled. -/
theorem Kept.after (kept : Kept site gen files s) (name : Addressable i) (updown : Bool)
    (permitted : ¬Says s.files (statePath site gen i) "disabled") (rc : Int) :
    Kept site gen files (after site (statePath site gen i) updown s i rc) := by
  have about : subject (line updown i) = some i := name.subject_line updown
  have notAbout (j : String) (other : j ≠ i) : subject (line updown i) ≠ some j := by
    rw [about]
    exact fun same => other (Option.some.inj same).symm
  have elsewhere (j : String) (other : j ≠ i) :
      (AdminState.after site (statePath site gen i) updown s i rc).files (statePath site gen j) = s.files (statePath site gen j) :=
    after_elsewhere updown s i rc fun same => other (statePath_inj.mp same)
  have others (j : String) (other : j ≠ i) : lastOn j (AdminState.after site (statePath site gen i) updown s i rc).sent = lastOn j s.sent := by
    rw [after_sent, lastOn_other (notAbout j other)]
  constructor
  · refine ⟨?_, kept.current.2⟩
    rw [after_elsewhere updown s i rc (statePath_ne_gen site gen i).symm]
    exact kept.current.1
  · constructor
    · intro j said
      obtain ⟨unsent, still⟩ := kept.respected.disabled j said
      have other : j ≠ i := by
        rintro rfl
        exact permitted still
      constructor
      · intro c member
        rw [after_sent] at member
        rcases List.mem_append.mp member with old | new
        · exact unsent c old
        · rw [List.mem_singleton.mp new]
          exact notAbout j other
      · rwa [Says, elsewhere j other]
    · intro j unsaid opens word last
      by_cases own : j = i
      · subst own
        by_cases ok : rc = 0
        · subst ok
          rw [after_sent, name.lastOn_line] at last
          obtain rfl := Option.some.inj last
          refine ⟨?_, after_ok updown s j opens⟩
          cases updown with
          | true => exact .inl rfl
          | false => exact .inr rfl
        · rw [after_failed updown s j ok]
          rw [after_sent, lastOn_failed ok] at last
          exact kept.respected.last j unsaid opens word last
      · rw [others j own] at last
        rw [Says, elsewhere j own]
        exact kept.respected.last j unsaid opens word last
    · intro j none
      by_cases own : j = i
      · subst own
        by_cases ok : rc = 0
        · subst ok
          rw [after_sent, name.lastOn_line] at none
          cases none
        · rw [after_failed updown s j ok]
          rw [after_sent, lastOn_failed ok] at none
          exact kept.respected.rest j none
      · rw [others j own] at none
        rw [elsewhere j own]
        exact kept.respected.rest j none

/-- The path of each of the states fits into the buffer. -/
def Fits (site : Site) (gen : Int) (names : List String) : Prop :=
  ∀ i ∈ names, (statePath site gen i).toList.length ≤ 127

theorem Kept.sumOver (kept : Kept site gen files s) (updown : Bool) {ifaces : List String}
    (named : ∀ i ∈ ifaces, Addressable i) (fits : Fits site gen ifaces) :
    ∃ rc t, Program.sumOver ifaces (ifset site updown) s = (.ok rc, t) ∧ Kept site gen files t := by
  induction ifaces generalizing s with
  | nil => exact ⟨0, s, rfl, kept⟩
  | cons i rest ih =>
    rw [List.forall_mem_cons] at named
    rw [Fits, List.forall_mem_cons] at fits
    obtain ⟨rc, t, first, keeps⟩ : ∃ rc t, ifset site updown i s = (.ok rc, t) ∧ Kept site gen files t := by
      have spec := ifset_spec kept.current updown i
      rw [buffer_short fits.1] at spec
      rcases spec with ⟨-, skipped⟩ | ⟨permitted, rc, sent⟩
      · exact ⟨0, s, skipped, kept⟩
      · exact ⟨rc, _, sent, kept.after named.1 updown permitted rc⟩
    obtain ⟨total, u, later, still⟩ := ih keeps named.2 fits.2
    exact ⟨_, u, Program.sumOver_cons _ first later, still⟩

theorem Kept.invoke (kept : Kept site gen files s) (inv : Invocation) (named : ∀ i ∈ inv.ifaces site gen, Addressable i)
    (fits : Fits site gen (inv.ifaces site gen)) : Kept site gen files (invoke site s inv) := by
  have listed : ifaceList site (inv.args.map copied) s = (.ok (inv.ifaces site gen), s) := by
    rw [ifaceList]
    by_cases all : inv.args = []
    · rw [if_pos (by rw [all]; rfl), Invocation.ifaces, if_pos all, getifs, Program.bind_eq (getpath_eq kept.current)]
      rfl
    · rw [if_neg (by rwa [List.map_eq_nil_iff]), Invocation.ifaces, if_neg all]
      rfl
  obtain ⟨rc, t, ran, keeps⟩ := kept.sumOver inv.updown named fits
  rw [AdminState.invoke, ifupdown, Program.bind_eq listed, ran]
  exact keeps

theorem Kept.run (kept : Kept site gen files s) {invs : List Invocation} {names : List String}
    (asked : ∀ inv ∈ invs, ∀ i ∈ inv.ifaces site gen, i ∈ names) (named : ∀ i ∈ names, Addressable i)
    (fits : Fits site gen names) : Kept site gen files (invs.foldl (AdminState.invoke site) s) := by
  induction invs generalizing s with
  | nil => exact kept
  | cons inv rest ih =>
    rw [List.forall_mem_cons] at asked
    have next := kept.invoke inv (fun i member => named i (asked.1 i member)) fun i member => fits i (asked.1 i member)
    exact ih next asked.2

/-- Over any files and any history of calls on these interfaces: a disabled one is left
alone, and the state of any other is what the last successful command has made it,
exactly if the path of each state is at most 127 characters long. -/
theorem never_touched_iff (site : Site) (gen : Int) (range : -2 ^ 31 ≤ gen ∧ gen < 2 ^ 31) (names : List String)
    (named : ∀ i ∈ names, Addressable i) :
    (∀ files, files (site.net ++ "/gen") = some (unlines [toString gen]) → ∀ invs : List Invocation,
      (∀ inv ∈ invs, ∀ i ∈ inv.ifaces site gen, i ∈ names) → Respected site gen files (run site files invs)) ↔
    Fits site gen names := by
  constructor
  · intro respects i member
    by_contra long
    let files : String → Option Text := fun path =>
      if path = statePath site gen i then some (unlines ["disabled"])
      else if path = site.net ++ "/gen" then some (unlines [toString gen])
      else none
    have written : files (site.net ++ "/gen") = some (unlines [toString gen]) := by
      simp only [files, if_neg (statePath_ne_gen site gen i).symm, if_true]
    have said : Says files (statePath site gen i) "disabled" := by
      refine ⟨unlines ["disabled"], by simp only [files, if_true], by decide⟩
    have asked : ∀ inv ∈ [Invocation.mk true [i]], ∀ j ∈ inv.ifaces site gen, j ∈ names := by
      intro inv only j listed
      rw [List.mem_singleton.mp only] at listed
      have own : j = copied i := List.mem_singleton.mp listed
      rw [own, (named i member).named.1.copied_eq]
      exact member
    have left := ((respects files written [⟨true, [i]⟩] asked).disabled i said).1
    -- the path in the buffer is another one, and nothing there forbids the command
    have current : Current site gen (State.mk files []).files := ⟨written, range⟩
    have permitted : ¬Says files (buffer site gen i) "disabled" := by
      rintro ⟨text, found, first⟩
      simp only [files, if_neg (buffer_long long), Option.ite_none_right_eq_some, Option.some.injEq] at found
      rw [← found.2, lines_unlines (by simpa using decimal_plain range.1 range.2), List.head?_cons] at first
      exact decimal_ne_disabled range.1 range.2 (Option.some.inj first)
    rcases ifset_spec current true i with ⟨no, -⟩ | ⟨-, rc, sent⟩
    · exact permitted no
    · have ran : run site files [⟨true, [i]⟩] = after site (buffer site gen i) true ⟨files, []⟩ i rc := by
        have listed : ifaceList site [copied i] ⟨files, []⟩ = (.ok [i], ⟨files, []⟩) := by
          rw [(named i member).named.1.copied_eq]
          rfl
        change (ifupdown site true [copied i] ⟨files, []⟩).2 = _
        rw [ifupdown, Program.bind_eq listed, Program.sumOver_cons _ sent rfl]
      rw [ran, after_sent] at left
      exact left _ (List.mem_singleton_self _) ((named i member).subject_line true)
  · intro fits files written invs asked
    exact ((Kept.start ⟨written, range⟩).run asked named fits).respected

/-- A directory with one interface, where every call succeeds. -/
def onePort (net : String) : Site where
  net := net
  entries := fun _ => ["eth0"]
  writable := fun _ => true
  system := fun _ => 0

theorem eth0_addressable : ∀ i ∈ ["eth0"], Addressable i := by
  intro i member
  rw [List.mem_singleton.mp member]
  exact ⟨⟨by decide, by decide, by decide⟩, by decide, by decide⟩

theorem never_touched_iff_eth0 : Fits (onePort "/run/net") 0 ["eth0"] ∧
    ∀ files, files ((onePort "/run/net").net ++ "/gen") = some (unlines [toString (0 : Int)]) → ∀ invs : List Invocation,
      (∀ inv ∈ invs, ∀ i ∈ inv.ifaces (onePort "/run/net") 0, i ∈ ["eth0"]) →
        Respected (onePort "/run/net") 0 files (run (onePort "/run/net") files invs) := by
  have fits : Fits (onePort "/run/net") 0 ["eth0"] := by
    intro i member
    rw [List.mem_singleton.mp member]
    decide
  exact ⟨fits, (never_touched_iff (onePort "/run/net") 0 (by decide) ["eth0"] eth0_addressable).mpr fits⟩

/-- A path of 111 characters. -/
def deep : String := String.ofList ('/' :: List.replicate 110 'x')

def deepFiles (path : String) : Option Text :=
  if path = statePath (onePort deep) 0 "eth0" then some (unlines ["disabled"])
  else if path = deep ++ "/gen" then some (unlines ["0"])
  else none

/-- The interface is disabled, and `net up` takes it up. -/
theorem disabled_taken_up : Says deepFiles (statePath (onePort deep) 0 "eth0") "disabled" ∧
    (run (onePort deep) deepFiles [⟨true, []⟩]).sent = [("ip link set eth0 up", 0)] ∧
      subject "ip link set eth0 up" = some "eth0" := by
  refine ⟨⟨unlines ["disabled"], if_pos rfl, by decide⟩, ?_, by decide⟩
  decide +kernel

end History

end NetTool.AdminState
