import InfixOS.IetfSystem.Callbacks
import InfixOS.Posix.Words

/-! What the resolver makes of the file that change_dns prepares. -/
namespace IetfSystem
open Core Posix

/-- The part of resolv.conf(5) that the file uses. -/
structure Resolver where
  timeout : Nat
  attempts : Nat
  search : List String
  nameservers : List String
  deriving DecidableEq, Repr

namespace Resolver

/-- Without an option the resolver waits 5 seconds, and tries twice. -/
def unset : Resolver := ⟨5, 2, [], []⟩

/-- The number in `name:n`. -/
def optionValue (name : String) (word : String) : Option Nat :=
  if (name ++ ":").toList <+: word.toList then some (Nat.ofDigitChars 10 (word.toList.drop (name.length + 1)) 0) else none

def readOption (r : Resolver) (word : String) : Resolver :=
  match optionValue "timeout" word, optionValue "attempts" word with
  | some n, _ => { r with timeout := n }
  | none, some n => { r with attempts := n }
  | none, none => r

/-- The last search line counts, and all nameserver lines do. -/
def readLine (r : Resolver) : List String → Resolver
  | "options" :: words => words.foldl readOption r
  | "search" :: domains => { r with search := domains }
  | "nameserver" :: address :: _ => { r with nameservers := r.nameservers ++ [address] }
  | _ => r

/-- The lines of a file from a resolver so far. -/
def readFrom (r : Resolver) (text : List Char) : Resolver :=
  (text.splitOnP (· = '\n')).foldl (fun r line => r.readLine (fields (String.ofList line))) r

def decode (text : String) : Resolver := unset.readFrom text.toList

theorem readFrom_line (single : ∀ c ∈ line, c ≠ '\n') (r : Resolver) (rest : List Char) :
    r.readFrom (line ++ '\n' :: rest) = (r.readLine (fields (String.ofList line))).readFrom rest := by
  rw [readFrom, List.splitOnP_append_cons_of_forall_mem (by simpa using single) '\n' (by simp) rest, List.foldl_cons]
  rfl

theorem readFrom_nil (r : Resolver) : r.readFrom [] = r := by
  simp [readFrom, fields, readLine]

end Resolver

/-- A name that is one word of the file. -/
def IsWord (word : String) : Prop := (∀ c ∈ word.toList, isBlank c = false) ∧ word ≠ ""

instance (word : String) : Decidable (IsWord word) :=
  haveI := List.decidableBAll (fun c => isBlank c = false) word.toList
  inferInstanceAs (Decidable (_ ∧ _))

/-- A dns-resolver configuration, by the types of its leaves. -/
structure DnsResolver where
  timeout : Fin 256
  attempts : Fin 256
  search : List String
  servers : List String
  timeoutRange : 1 ≤ timeout.val
  attemptsRange : 1 ≤ attempts.val
  words : ∀ word ∈ search ++ servers, IsWord word

/-- What it is to mean for the resolver. -/
def DnsResolver.resolver (config : DnsResolver) : Resolver :=
  ⟨config.timeout, config.attempts, config.search, config.servers⟩

/-- The session that reads a configuration. -/
structure Reads (session : Session) (config : DnsResolver) : Prop where
  timeout : session.timeout = some config.timeout
  attempts : session.attempts = some config.attempts
  search : session.search = ⟨.ok, config.search⟩
  servers : session.dnsServers = ⟨.ok, config.servers.map some⟩

/-- The options line, for the value that was read last. -/
theorem optionsLine_eq (reads : Reads session config) :
    optionsLine session = "options" ++ (" timeout:" ++ toString config.attempts.val) ++ "\n" := by
  have positive : config.attempts.val ≠ 0 := by have := config.attemptsRange; omega
  rw [optionsLine, reads.attempts]
  dsimp only
  rw [if_pos (.inl positive), if_pos positive, if_neg (by decide), String.append_empty]

/-- The file holds the options, the search list and the servers. -/
theorem prepareDns_eq (reads : Reads session config) (opens : calls.opens = true) (files : Files Entry) :
    prepareDns calls session files =
      ⟨files.write (upcoming resolvConf) (.file (optionsLine session ++ searchLine config.search ++
        String.join ((config.servers.map some).map nameserverLine))), [], .ok⟩ := by
  rw [prepareDns, reads.search, reads.servers, if_neg (by simp [opens])]
  dsimp only
  rw [if_neg (by simp), if_neg (by simp)]

section Decoding
variable {r : Resolver} {domains servers : List String}

theorem toString_digits (n : Nat) : (toString n).toList = Nat.toDigits 10 n := Nat.toList_repr

theorem digit_not_blank (member : c ∈ Nat.toDigits 10 n) : isBlank c = false := by
  have digit : c.isDigit = true := Nat.isDigit_of_mem_toDigits (by decide) (by decide) member
  have outside (d : Char) (other : d.isDigit = false) : c ≠ d := by
    rintro rfl
    simp [digit] at other
  simp [isBlank, outside ' ' (by decide), outside '\t' (by decide), outside '\n' (by decide)]

theorem IsWord.single (word : IsWord text) : ∀ c ∈ text.toList, c ≠ '\n' := by
  rintro c member rfl
  exact absurd (word.1 _ member) (by decide)

/-- A line is a keyword and its arguments. -/
theorem read_keyword (keyword : IsWord name) (single : ∀ c ∈ args.toList, c ≠ '\n') (r : Resolver) (rest : List Char) :
    r.readFrom (name.toList ++ ' ' :: args.toList ++ '\n' :: rest) = (r.readLine (name :: fields args)).readFrom rest := by
  have line : ∀ c ∈ name.toList ++ ' ' :: args.toList, c ≠ '\n' := by
    intro c member
    rcases List.mem_append.mp member with front | later
    · exact keyword.single c front
    · rcases List.mem_cons.mp later with rfl | inside
      · decide
      · exact single c inside
  have words : fields (String.ofList (name.toList ++ ' ' :: args.toList)) = name :: fields args :=
    fields_cons String.toList_ofList keyword.1 keyword.2 (by decide)
  rw [Resolver.readFrom_line line, words]

/-- The number goes to `timeout`. -/
theorem read_options (n : Nat) (r : Resolver) (rest : List Char) :
    r.readFrom (("options" ++ (" timeout:" ++ toString n) ++ "\n").toList ++ rest) = { r with timeout := n }.readFrom rest := by
  let word := "timeout:" ++ toString n
  have letters : word.toList = ("timeout" ++ ":").toList ++ Nat.toDigits 10 n := by
    rw [String.toList_append, toString_digits]
    rfl
  have isWord : IsWord word := by
    constructor
    · intro c member
      rw [letters] at member
      rcases List.mem_append.mp member with name | digits
      · exact (by decide +kernel : IsWord ("timeout" ++ ":")).1 c name
      · exact digit_not_blank digits
    · intro empty
      have none := congrArg String.toList empty
      rw [letters] at none
      exact absurd (List.append_eq_nil_iff.mp none).1 (by decide)
  have value : Resolver.optionValue "timeout" word = some n := by
    rw [Resolver.optionValue, letters, if_pos (List.prefix_append _ _)]
    exact congrArg some Nat.ofDigitChars_ten_toDigits
  have text : ("options" ++ (" timeout:" ++ toString n) ++ "\n").toList ++ rest =
      "options".toList ++ ' ' :: word.toList ++ '\n' :: rest := by
    rw [letters, String.toList_append, String.toList_append, String.toList_append, toString_digits]
    simp
  rw [text, read_keyword (by decide +kernel) isWord.single, fields_of_plain isWord.1 isWord.2]
  simp [Resolver.readLine, Resolver.readOption, value]

theorem fields_joined (words : ∀ word ∈ domains, IsWord word) :
    fields (String.join (domains.map (· ++ " "))) = domains := by
  induction domains with
  | nil => simp [fields]
  | cons word more ih =>
    obtain ⟨⟨plain, nonempty⟩, others⟩ := List.forall_mem_cons.mp words
    have first : fields (String.join ((word :: more).map (· ++ " "))) = word :: fields (String.join (more.map (· ++ " "))) :=
      fields_cons (by simp) plain nonempty (by decide : isBlank ' ' = true)
    rw [first, ih others]

theorem joined_single (words : ∀ word ∈ domains, IsWord word) :
    ∀ c ∈ (String.join (domains.map (· ++ " "))).toList, c ≠ '\n' := by
  induction domains with
  | nil => simp
  | cons word more ih =>
    obtain ⟨here, others⟩ := List.forall_mem_cons.mp words
    intro c member
    simp only [List.map_cons, String.join_cons, String.toList_append, List.mem_append] at member
    rcases member with (front | blank) | later
    · exact here.single c front
    · rintro rfl
      exact absurd blank (by decide)
    · exact ih others c later

theorem read_search (words : ∀ word ∈ domains, IsWord word) (none : r.search = []) (rest : List Char) :
    r.readFrom ((searchLine domains).toList ++ rest) = { r with search := domains }.readFrom rest := by
  rw [searchLine]
  split
  · rename_i empty
    rw [empty, ← none]
    rfl
  · have text : ("search " ++ String.join (domains.map (· ++ " ")) ++ "\n").toList ++ rest =
        "search".toList ++ ' ' :: (String.join (domains.map (· ++ " "))).toList ++ '\n' :: rest := by
      rw [String.toList_append, String.toList_append]
      simp
    rw [text, read_keyword (by decide +kernel) (joined_single words), fields_joined words]
    rfl

theorem read_nameservers (words : ∀ word ∈ servers, IsWord word) (r : Resolver) :
    r.readFrom (String.join ((servers.map some).map nameserverLine)).toList =
      { r with nameservers := r.nameservers ++ servers } := by
  induction servers generalizing r with
  | nil => simp [Resolver.readFrom_nil]
  | cons address more ih =>
    obtain ⟨here, others⟩ := List.forall_mem_cons.mp words
    have text : (String.join (((address :: more).map some).map nameserverLine)).toList =
        "nameserver".toList ++ ' ' :: address.toList ++ '\n' :: (String.join ((more.map some).map nameserverLine)).toList := by
      rw [List.map_cons, List.map_cons, String.join_cons, nameserverLine, String.toList_append, String.toList_append,
        String.toList_append]
      simp
    rw [text, read_keyword (by decide +kernel) here.single, fields_of_plain here.1 here.2, ih others]
    simp [Resolver.readLine]

end Decoding

/-- What the resolver reads of an entry. -/
def resolverOf : Option Entry → Option Resolver
  | some (.file text) => some (Resolver.decode text)
  | _ => none

/-- The prepared file always has the configured attempts as its timeout, and none of its
own. -/
theorem prepared_resolver (reads : Reads session config) (opens : calls.opens = true)
    (prepares : event = .enabled ∨ event = .change) (host : Host) (files : Files Entry) :
    resolverOf ((changeDns host calls session event files).files (upcoming resolvConf)) =
      some ⟨config.attempts, 2, config.search, config.servers⟩ := by
  have prepared : changeDns host calls session event files = prepareDns calls session files := by
    rcases prepares with rfl | rfl <;> rfl
  obtain ⟨domains, addresses⟩ := List.forall_mem_append.mp config.words
  rw [prepared, prepareDns_eq reads opens, optionsLine_eq reads]
  simp only [Files.write, if_true, resolverOf, Resolver.decode]
  rw [String.toList_append, String.toList_append, List.append_assoc, read_options, read_search domains rfl,
    read_nameservers addresses]
  rfl

/-- The resolver reads back the configuration exactly if both numbers are 2. -/
theorem resolver_iff (reads : Reads session config) (opens : calls.opens = true)
    (prepares : event = .enabled ∨ event = .change) (host : Host) (files : Files Entry) :
    resolverOf ((changeDns host calls session event files).files (upcoming resolvConf)) = some config.resolver ↔
      config.timeout.val = 2 ∧ config.attempts.val = 2 := by
  rw [prepared_resolver reads opens prepares]
  simp only [DnsResolver.resolver, Option.some.injEq, Resolver.mk.injEq, and_true]
  constructor <;> rintro ⟨first, second⟩ <;> omega

/-- A configuration with two servers. -/
def resolverOptions (timeout attempts : Fin 256) (timeoutRange : 1 ≤ timeout.val) (attemptsRange : 1 ≤ attempts.val) :
    DnsResolver :=
  ⟨timeout, attempts, ["example.com", "local"], ["192.168.1.1", "2001:db8::1"], timeoutRange, attemptsRange,
    by decide +kernel⟩

def resolverSession (config : DnsResolver) : Session :=
  ⟨none, false, ⟨.ok, []⟩, some config.timeout, some config.attempts, ⟨.ok, config.search⟩,
    ⟨.ok, config.servers.map some⟩⟩

def resolverHost : Host := ⟨fun _ files => (files, 0), fun _ => 0⟩

/-- With two seconds and two attempts the file is right. -/
theorem resolver_iff_two :
    let config := resolverOptions 2 2 (by decide) (by decide)
    resolverOf ((changeDns resolverHost ⟨true, true, true⟩ (resolverSession config) .change fun _ => none).files
      (upcoming resolvConf)) = some config.resolver :=
  (resolver_iff ⟨rfl, rfl, rfl, rfl⟩ rfl (.inr rfl) resolverHost fun _ => none).mpr ⟨rfl, rfl⟩

/-- By default the resolver is to wait 5 seconds, and waits 2. -/
theorem default_timeout_lost :
    let config := resolverOptions 5 2 (by decide) (by decide)
    config.resolver.timeout = 5 ∧
      (resolverOf ((changeDns resolverHost ⟨true, true, true⟩ (resolverSession config) .change fun _ => none).files
        (upcoming resolvConf))).map Resolver.timeout = some 2 := by
  decide +kernel

end IetfSystem
