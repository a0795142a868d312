import InfixOS.Core.Sysrepo
import InfixOS.Posix.CommandLine

/-! The update callback of src/confd/src/confd/ietf-interfaces.c, ifchange_cand, which
fills in what can be inferred about the interfaces of a candidate configuration. Names
of interfaces do not hold both kinds of quotes, so that they can be written as keys. -/
namespace Inference
open Core Posix

/-- The leaves of an interface, `other` standing for those that are not inferred. -/
inductive Leaf where
  | type
  | peer
  | parentInterface
  | tagType
  | vlanId
  | other (path : String)
  deriving DecidableEq, Repr

/-- An interface apart from its name, which is the key of the list. -/
abbrev Iface := Leaf → Option String

/-- The interfaces of the candidate as the session reads them, with its own edits. -/
abbrev Candidate := String → Option Iface

namespace Candidate

def get (c : Candidate) (name : String) (leaf : Leaf) : Option String := (c name).bind fun iface => iface leaf

/-- Set a leaf, and create the interface if there is none. -/
def set (c : Candidate) (name : String) (leaf : Leaf) (value : String) : Candidate :=
  fun other => if other = name then some fun l => if l = leaf then some value else c.get name l else c other

end Candidate

/-- The kernel's links, and what an XPath expression selects whose `[name='..']` holds a
further apostrophe. -/
structure Host where
  isPhys : String → Bool
  select : Candidate → String → Option Nat

/-- `iface_xpath` cuts the path of a changed node after the first `]` that a slash
follows. That may be within the name of the interface, and the rest is no expression. -/
def isCut : List Char → Bool
  | [] => false
  | c :: rest => (c = ']' && rest.head? = some '/') || isCut rest

/-- `srx_get_str` below the path that `iface_xpath` returns. -/
def Candidate.read (c : Candidate) (name : String) (leaf : Leaf) : Option String :=
  if isCut name.toList then none else c.get name leaf

/-- `srx_nitems` of `"/interfaces/interface[name='%s']/name"`. -/
def nitems (host : Host) (c : Candidate) (name : String) : Option Nat :=
  if apostrophe ∈ name.toList then host.select c name else some (if (c name).isSome then 1 else 0)

/-- `srx_set_str` below `IF_XPATH "[name='%s']"`. A path to be set takes no further
apostrophe. -/
def setNamed (c : Candidate) (name : String) (leaf : Leaf) (value : String) : Option Candidate :=
  if apostrophe ∈ name.toList then none else some (c.set name leaf value)

/-- The candidate after an inference, and its result. -/
structure Result where
  candidate : Candidate
  err : SrError

/-- A library call that has failed. -/
def failed : SrError := .other 1

def vethType : String := "infix-if-type:veth"

def l2vlanType : String := "iana-if-type:l2vlan"

def cVlan : String := "ieee802-dot1q-types:c-vlan"

/-- The pattern `+([..])`. -/
def oneOrMore (accept : Char → Bool) (text : List Char) : Bool := text ≠ [] && text.all accept

/-- `fnmatch` of a stem and `+([..])`. -/
def stemMatch (stem : String) (accept : Char → Bool) (name : String) : Bool :=
  stem.toList.isPrefixOf name.toList && oneOrMore accept (name.toList.drop stem.length)

/-- `rindex(name, '.')`: what is before and after the last dot. -/
def rindexDot (name : String) : Option (String × String) :=
  let back := name.toList.reverse
  match back.dropWhile (· ≠ '.') with
  | [] => none
  | _ :: before => some (String.ofList before.reverse, String.ofList (back.takeWhile (· ≠ '.')).reverse)

/-- `fnmatch("*.+([0-9])", ..)`. Digits hold no dot, so the dot is the last one. -/
def dotDigits (name : String) : Bool :=
  match rindexDot name with
  | some (_, digits) => oneOrMore Char.isDigit digits.toList
  | none => false

/-- The type that a name stands for. -/
def typeByName (host : Host) (name : String) : Option String :=
  if host.isPhys name then some "iana-if-type:ethernetCsmacd"
  else if stemMatch "br" Char.isDigit name then some "iana-if-type:bridge"
  else if stemMatch "lag" Char.isDigit name then some "iana-if-type:ieee8023adLag"
  else if stemMatch "veth" (fun c => c.isDigit || c.isLower || c = '_' || c = '-') name then some vethType
  else if stemMatch "vlan" Char.isDigit name then some l2vlanType
  else if dotDigits name then some l2vlanType
  else none

/-- `ifchange_cand_infer_type`. -/
def inferType (host : Host) (c : Candidate) (name : String) : Result :=
  match c.read name .type with
  | some _ => ⟨c, .ok⟩
  | none =>
    if isCut name.toList ∨ (c name).isNone then ⟨c, .internal⟩
    else match typeByName host name with
      | some type => ⟨c.set name .type type, .ok⟩
      | none => ⟨c, .ok⟩

/-- `ifchange_cand_infer_veth`. -/
def inferVeth (host : Host) (c : Candidate) (name : String) : Result :=
  if c.read name .type ≠ some vethType then ⟨c, .ok⟩
  else match c.read name .peer with
    | none => ⟨c, .ok⟩
    | some peer =>
      match nitems host c peer with
      | none => ⟨c, failed⟩
      | some (_ + 1) => ⟨c, .ok⟩
      | some 0 =>
        match setNamed c peer .type vethType with
        | none => ⟨c, failed⟩
        | some typed =>
          match setNamed typed peer .peer name with
          | none => ⟨typed, failed⟩
          | some linked => ⟨linked, .ok⟩

/-- `strtol(digits, NULL, 10)`. -/
def strtol (digits : String) : Nat := Nat.ofDigitChars 10 digits.toList 0

/-- An unsigned integer of YANG, where a leading zero means octal. -/
def yangInteger : List Char → Option Nat
  | '0' :: c :: rest =>
    if (c :: rest).all (fun d => d.isDigit && d ≠ '8' && d ≠ '9') then some (Nat.ofDigitChars 8 (c :: rest) 0) else none
  | text => if oneOrMore Char.isDigit text then some (Nat.ofDigitChars 10 text 0) else none

/-- The type vlanid. -/
def vlanid (text : String) : Option Nat := (yangInteger text.toList).filter fun n => 1 ≤ n ∧ n ≤ 4094

/-- Set a leaf that is absent. -/
def Candidate.fill (c : Candidate) (name : String) (leaf : Leaf) (value : String) : Candidate :=
  if (c.get name leaf).isNone then c.set name leaf value else c

/-- The leaves of a VLAN, one after the other. The data store refuses a vlan-id that is
not of its type, and otherwise keeps its number. -/
def fillVlan (c : Candidate) (name parent digits : String) : Result :=
  let tagged := (c.fill name .parentInterface parent).fill name .tagType cVlan
  if (tagged.get name .vlanId).isNone then
    match vlanid digits with
    | some vid => ⟨tagged.set name .vlanId (toString vid), .ok⟩
    | none => ⟨tagged, failed⟩
  else ⟨tagged, .ok⟩

/-- `ifchange_cand_infer_vlan`. -/
def inferVlan (host : Host) (c : Candidate) (name : String) : Result :=
  if c.read name .type ≠ some l2vlanType then ⟨c, .ok⟩
  else match rindexDot name with
    | none => ⟨c, .ok⟩
    | some (parent, digits) =>
      if !oneOrMore Char.isDigit digits.toList then ⟨c, .ok⟩
      else if strtol digits < 1 ∨ strtol digits > 4095 then ⟨c, .ok⟩
      else match nitems host c parent with
        | none => ⟨c, failed⟩
        | some 0 => ⟨c, .ok⟩
        | some (_ + 1) => fillVlan c name parent digits

def Result.andThen (first : Result) (next : Candidate → Result) : Result :=
  if first.err = .ok then next first.candidate else first

/-- The three inferences for a changed node of an interface. -/
def infer (host : Host) (c : Candidate) (name : String) : Result :=
  ((inferType host c name).andThen (inferVeth host · name)).andThen (inferVlan host · name)

/-- A changed node, by its operation and the interface it is in. -/
structure Change where
  op : SrOp
  name : String
  deriving DecidableEq, Repr

/-- `ifchange_cand`, which stops at the first error and does not return it. -/
def ifchangeCand (host : Host) : Candidate → List Change → Candidate
  | c, [] => c
  | c, change :: later =>
    if change.op = .created ∨ change.op = .modified then
      let result := infer host c change.name
      if result.err = .ok then ifchangeCand host result.candidate later else result.candidate
    else ifchangeCand host c later

section Frame

/-- `name` names `peer`, and is a veth. -/
def VethWith (c : Candidate) (name peer : String) : Prop :=
  c.get name .type = some vethType ∧ c.get name .peer = some peer

/-- The leaves that may be added on the way from `c` to `d`. -/
inductive Added (c d : Candidate) (name : String) : Leaf → Prop
  | type (known : c name ≠ none) (untyped : c.get name .type = none) : Added c d name .type
  | peerType (missing : c name = none) (named : VethWith d other name) : Added c d name .type
  | peerPeer (missing : c name = none) (named : VethWith d other name) : Added c d name .peer
  | parent (vlan : d.get name .type = some l2vlanType) : Added c d name .parentInterface
  | tagType (vlan : d.get name .type = some l2vlanType) : Added c d name .tagType
  | vlanId (vlan : d.get name .type = some l2vlanType) : Added c d name .vlanId

/-- `d` has all that `c` has, and beyond it only what may be added. -/
structure Fills (c d : Candidate) : Prop where
  known : ∀ name, c name ≠ none → d name ≠ none
  keeps : ∀ name leaf value, c.get name leaf = some value → d.get name leaf = some value
  created : ∀ name, c name = none → d name ≠ none → (∃ other, VethWith d other name) ∧ d.get name .type ≠ none
  added : ∀ name leaf, c.get name leaf = none → d.get name leaf ≠ none → Added c d name leaf

theorem Fills.refl (c : Candidate) : Fills c c :=
  ⟨fun _ known => known, fun _ _ _ found => found, fun _ missing there => absurd missing there,
    fun _ _ missing there => absurd missing there⟩

theorem VethWith.mono (keeps : ∀ name leaf value, c.get name leaf = some value → d.get name leaf = some value)
    (veth : VethWith c name peer) : VethWith d name peer :=
  ⟨keeps _ _ _ veth.1, keeps _ _ _ veth.2⟩

theorem Candidate.get_of_missing {c : Candidate} (missing : c name = none) (leaf : Leaf) : c.get name leaf = none := by
  rw [Candidate.get, missing]
  rfl

theorem Fills.trans (first : Fills c d) (second : Fills d e) : Fills c e := by
  refine ⟨fun name known => second.known name (first.known name known),
    fun name leaf value found => second.keeps _ _ _ (first.keeps _ _ _ found), fun name missing there => ?_,
    fun name leaf missing there => ?_⟩
  · by_cases between : d name = none
    · exact second.created name between there
    · obtain ⟨⟨other, veth⟩, typed⟩ := first.created name missing between
      obtain ⟨type, found⟩ := Option.ne_none_iff_exists'.mp typed
      refine ⟨⟨other, veth.mono second.keeps⟩, ?_⟩
      rw [second.keeps _ _ _ found]
      exact Option.some_ne_none _
  · cases between : d.get name leaf with
    | some value =>
      have now := first.added name leaf missing (by rw [between]; exact Option.some_ne_none _)
      cases now with
      | type known untyped => exact .type known untyped
      | peerType gone named => exact .peerType gone (named.mono second.keeps)
      | peerPeer gone named => exact .peerPeer gone (named.mono second.keeps)
      | parent vlan => exact .parent (second.keeps _ _ _ vlan)
      | tagType vlan => exact .tagType (second.keeps _ _ _ vlan)
      | vlanId vlan => exact .vlanId (second.keeps _ _ _ vlan)
    | none =>
      have later := second.added name leaf between there
      cases later with
      | type known untyped =>
        -- an interface that was created before has got its type with it
        by_cases old : c name = none
        · exact absurd untyped (first.created name old known).2
        · exact .type old missing
      | peerType gone named =>
        exact .peerType (by_contra fun old => first.known name old gone) named
      | peerPeer gone named =>
        exact .peerPeer (by_contra fun old => first.known name old gone) named
      | parent vlan => exact .parent vlan
      | tagType vlan => exact .tagType vlan
      | vlanId vlan => exact .vlanId vlan

theorem Candidate.get_set (c : Candidate) (name : String) (leaf : Leaf) (value : String) (other : String) (l : Leaf) :
    (c.set name leaf value).get other l = if other = name ∧ l = leaf then some value else c.get other l := by
  by_cases own : other = name
  · subst own
    by_cases same : l = leaf <;> simp [Candidate.get, Candidate.set, same]
  · simp [Candidate.get, Candidate.set, own]

theorem Candidate.set_ne_none (c : Candidate) (known : c other ≠ none) (name : String) (leaf : Leaf) (value : String) :
    c.set name leaf value other ≠ none := by
  rw [Candidate.set]
  split
  · exact Option.some_ne_none _
  · exact known

theorem Candidate.keeps_set {c : Candidate} (absent : c.get name leaf = none) (value : String) :
    ∀ other l v, c.get other l = some v → (c.set name leaf value).get other l = some v := by
  intro other l v found
  rw [get_set, if_neg, found]
  rintro ⟨rfl, rfl⟩
  rw [absent] at found
  cases found

/-- A leaf that is absent may be set where it may be added. -/
theorem fills_set {c : Candidate} (known : c name ≠ none) (absent : c.get name leaf = none)
    (may : Added c (c.set name leaf value) name leaf) : Fills c (c.set name leaf value) := by
  refine ⟨fun other old => c.set_ne_none old _ _ _, Candidate.keeps_set absent value, fun other missing there => ?_,
    fun other l missing there => ?_⟩
  · have apart : other ≠ name := by
      rintro rfl
      exact known missing
    rw [Candidate.set, if_neg apart] at there
    exact absurd missing there
  · rw [Candidate.get_set] at there
    split at there
    · rename_i same
      obtain ⟨rfl, rfl⟩ := same
      exact may
    · exact absurd missing there

theorem Candidate.read_of_uncut (c : Candidate) (uncut : isCut name.toList = false) (leaf : Leaf) :
    c.read name leaf = c.get name leaf := by
  simp [read, uncut]

theorem Candidate.read_of_cut (c : Candidate) (cut : isCut name.toList = true) (leaf : Leaf) : c.read name leaf = none := by
  simp [read, cut]

theorem Candidate.get_of_read {c : Candidate} (found : c.read name leaf = some value) :
    isCut name.toList = false ∧ c.get name leaf = some value := by
  cases cut : isCut name.toList with
  | true => rw [c.read_of_cut cut] at found; cases found
  | false => exact ⟨rfl, by rw [← c.read_of_uncut cut, found]⟩

theorem inferType_fills (host : Host) (c : Candidate) (name : String) : Fills c (inferType host c name).candidate := by
  rw [inferType]
  split
  · exact .refl c
  · rename_i unread
    split
    · exact .refl c
    · rename_i known
      have there : isCut name.toList = false ∧ c name ≠ none := by simpa using known
      have untyped : c.get name .type = none := by rw [← c.read_of_uncut there.1, unread]
      split
      · exact fills_set there.2 untyped (.type there.2 untyped)
      · exact .refl c

theorem Candidate.known_of_get {c : Candidate} (found : c.get name leaf = some value) : c name ≠ none := by
  intro missing
  rw [get_of_missing missing] at found
  cases found

/-- The other end of a pair, with its type and its own peer. -/
def Candidate.pair (c : Candidate) (peer name : String) : Candidate := (c.set peer .type vethType).set peer .peer name

/-- All that the inference of a peer can do: nothing, or create it. -/
theorem inferVeth_cases (host : Host) (c : Candidate) (name : String) :
    (inferVeth host c name).candidate = c ∨
      ∃ peer, VethWith c name peer ∧ c peer = none ∧ inferVeth host c name = ⟨c.pair peer name, .ok⟩ := by
  rw [inferVeth]
  split
  · exact .inl rfl
  · rename_i veth
    split
    · exact .inl rfl
    · rename_i peer named
      split
      · exact .inl rfl
      · exact .inl rfl
      · rename_i count
        by_cases odd : apostrophe ∈ peer.toList
        · simp [setNamed, odd]
        · refine .inr ⟨peer, ⟨(Candidate.get_of_read (not_not.mp veth)).2, (Candidate.get_of_read named).2⟩, by simpa [nitems, odd] using count, ?_⟩
          simp only [setNamed, if_neg odd]
          rfl

theorem pair_fills {c : Candidate} (veth : VethWith c name peer) (missing : c peer = none) : Fills c (c.pair peer name) := by
  have none : ∀ leaf, c.get peer leaf = none := Candidate.get_of_missing missing
  have keeps : ∀ other l v, c.get other l = some v → (c.pair peer name).get other l = some v := by
    intro other l v found
    refine Candidate.keeps_set ?_ name other l v (Candidate.keeps_set (none _) vethType other l v found)
    rw [Candidate.get_set, none, if_neg (by simp)]
  have there : ∀ other, other ≠ peer → c.pair peer name other = c other := by
    intro other apart
    simp [Candidate.pair, Candidate.set, apart]
  have named : VethWith (c.pair peer name) name peer := veth.mono keeps
  refine ⟨fun other old => ?_, keeps, fun other gone present => ?_, fun other l gone present => ?_⟩
  · exact Candidate.set_ne_none _ (Candidate.set_ne_none _ old _ _ _) _ _ _
  · by_cases own : other = peer
    · subst own
      refine ⟨⟨name, named⟩, ?_⟩
      simp [Candidate.pair, Candidate.get_set]
    · exact absurd gone (there other own ▸ present)
  · rw [Candidate.pair, Candidate.get_set, Candidate.get_set] at present
    split at present
    · rename_i same
      obtain ⟨rfl, rfl⟩ := same
      exact .peerPeer missing named
    · split at present
      · rename_i same
        obtain ⟨rfl, rfl⟩ := same
        exact .peerType missing named
      · exact absurd gone present

theorem inferVeth_fills (host : Host) (c : Candidate) (name : String) : Fills c (inferVeth host c name).candidate := by
  rcases inferVeth_cases host c name with same | ⟨peer, veth, missing, result⟩
  · rw [same]
    exact .refl c
  · rw [result]
    exact pair_fills veth missing

/-- A VLAN stays one when a leaf is filled in. -/
theorem fill_vlan {c : Candidate} (vlan : c.get name .type = some l2vlanType) (leaf : Leaf) (value : String) :
    (c.fill name leaf value).get name .type = some l2vlanType := by
  rw [Candidate.fill]
  split
  · rename_i absent
    exact Candidate.keeps_set (Option.isNone_iff_eq_none.mp absent) value _ _ _ vlan
  · exact vlan

theorem fill_fills {c : Candidate} (vlan : c.get name .type = some l2vlanType)
    (inferred : leaf = Leaf.parentInterface ∨ leaf = Leaf.tagType ∨ leaf = Leaf.vlanId) (value : String) :
    Fills c (c.fill name leaf value) := by
  have after := fill_vlan vlan leaf value
  rw [Candidate.fill] at after ⊢
  split
  · rename_i absent
    rw [if_pos absent] at after
    refine fills_set (Candidate.known_of_get vlan) (Option.isNone_iff_eq_none.mp absent) ?_
    rcases inferred with rfl | rfl | rfl
    · exact .parent after
    · exact .tagType after
    · exact .vlanId after
  · exact .refl c

theorem fillVlan_fills {c : Candidate} (vlan : c.get name .type = some l2vlanType) (parent digits : String) :
    Fills c (fillVlan c name parent digits).candidate := by
  have first := fill_fills vlan (.inl rfl) parent
  have typed := fill_vlan vlan .parentInterface parent
  have second := first.trans (fill_fills typed (.inr (.inl rfl)) cVlan)
  have typed' := fill_vlan typed .tagType cVlan
  rw [fillVlan]
  split
  · rename_i absent
    split
    · rename_i vid accepted
      have third := fill_fills typed' (.inr (.inr rfl)) (toString vid)
      have filled : ((c.fill name .parentInterface parent).fill name .tagType cVlan).fill name .vlanId (toString vid) =
          ((c.fill name .parentInterface parent).fill name .tagType cVlan).set name .vlanId (toString vid) := if_pos absent
      exact second.trans (filled ▸ third)
    · exact second
  · exact second

theorem inferVlan_fills (host : Host) (c : Candidate) (name : String) : Fills c (inferVlan host c name).candidate := by
  rw [inferVlan]
  split
  · exact .refl c
  · rename_i vlan
    have typed : c.get name .type = some l2vlanType := (Candidate.get_of_read (not_not.mp vlan)).2
    split
    · exact .refl c
    · split
      · exact .refl c
      · split
        · exact .refl c
        · split
          · exact .refl c
          · exact .refl c
          · exact fillVlan_fills typed _ _

theorem Result.andThen_fills {result : Result} {step : Candidate → Result} (first : Fills c result.candidate) (next : ∀ d, Fills d (step d).candidate) :
    Fills c (result.andThen step).candidate := by
  rw [Result.andThen]
  split
  · exact first.trans (next _)
  · exact first

theorem infer_fills (host : Host) (c : Candidate) (name : String) : Fills c (infer host c name).candidate :=
  Result.andThen_fills (Result.andThen_fills (inferType_fills host c name) fun d => inferVeth_fills host d name) fun d =>
    inferVlan_fills host d name

/-- Inference only fills gaps, whatever the changes are and wherever it stops. -/
theorem ifchangeCand_fills (host : Host) (c : Candidate) (changes : List Change) :
    Fills c (ifchangeCand host c changes) := by
  induction changes generalizing c with
  | nil => exact .refl c
  | cons change later ih =>
    rw [ifchangeCand]
    split
    · dsimp only
      split
      · exact (infer_fills host c change.name).trans (ih _)
      · exact infer_fills host c change.name
    · exact ih c

end Frame

end Inference
