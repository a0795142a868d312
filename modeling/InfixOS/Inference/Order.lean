import InfixOS.Inference.VlanId
import Mathlib.Data.List.Perm.Basic

/-! When the order of the changes does not matter to the inference. What it does for one
interface depends on others in one way only: a VLAN is filled in if its parent is there,
which may be the peer that is created for a veth. -/
namespace Inference
open Core Posix

section Single
variable {host : Host}

/-- An interface with the type that is inferred for it. Nothing is for one whose name is
cut. -/
def typed (host : Host) (name : String) (iface : Iface) : Iface := fun leaf =>
  if leaf = .type ∧ iface .type = none ∧ isCut name.toList = false then typeByName host name else iface leaf

/-- What an interface takes part in. -/
inductive Role where
  | pair (peer : String)
  | vlan (parent digits : String)
  | single
  deriving DecidableEq, Repr

def role (name : String) (iface : Iface) : Role :=
  if isCut name.toList then .single
  else if iface .type = some vethType then
    match iface .peer with
    | some peer => .pair peer
    | none => .single
  else if iface .type = some l2vlanType then
    match rindexDot name with
    | some (parent, digits) =>
      if oneOrMore Char.isDigit digits.toList ∧ 1 ≤ strtol digits ∧ strtol digits ≤ 4095 then .vlan parent digits else .single
    | none => .single
  else .single

/-- A VLAN with the leaves that are inferred for it. -/
def filled (iface : Iface) (parent digits : String) : Iface
  | .parentInterface => some ((iface .parentInterface).getD parent)
  | .tagType => some ((iface .tagType).getD cVlan)
  | .vlanId => (iface .vlanId).or ((vlanid digits).map toString)
  | leaf => iface leaf

/-- The data store refuses the number. -/
def Refused (iface : Iface) (digits : String) : Prop := iface .vlanId = none ∧ vlanid digits = none

/-- The other end of a pair. -/
def otherEnd (name : String) : Iface
  | .type => some vethType
  | .peer => some name
  | _ => none

def Candidate.put (c : Candidate) (name : String) (iface : Iface) : Candidate := Function.update c name (some iface)

theorem set_eq_put {c : Candidate} (there : c name = some iface) (leaf : Leaf) (value : String) :
    c.set name leaf value = c.put name (Function.update iface leaf (some value)) := by
  funext other
  by_cases own : other = name
  · subst own
    simp only [Candidate.set, Candidate.put, Candidate.get, there, Function.update_self, if_true, Option.bind_some,
      Option.some.injEq]
    funext l
    by_cases same : l = leaf <;> simp [same]
  · simp [Candidate.set, Candidate.put, own]

theorem put_self {c : Candidate} (there : c name = some iface) : c.put name iface = c := by
  rw [Candidate.put, ← there, Function.update_eq_self]

theorem put_put (c : Candidate) (name : String) (a b : Iface) : (c.put name a).put name b = c.put name b := by
  simp [Candidate.put]

theorem put_own (c : Candidate) (name : String) (iface : Iface) : c.put name iface name = some iface := by
  simp [Candidate.put]

theorem put_other (c : Candidate) (iface : Iface) (apart : other ≠ name) : c.put name iface other = c other := by
  simp [Candidate.put, apart]

theorem read_of_there {c : Candidate} (there : c name = some iface) (uncut : isCut name.toList = false) (leaf : Leaf) :
    c.read name leaf = iface leaf := by
  rw [c.read_of_uncut uncut, Candidate.get, there]
  rfl

theorem inferType_put {c : Candidate} (there : c name = some iface) (uncut : isCut name.toList = false) :
    inferType host c name = ⟨c.put name (typed host name iface), .ok⟩ := by
  rw [inferType, read_of_there there uncut]
  cases type : iface .type with
  | some old =>
    have same : typed host name iface = iface := by
      funext leaf
      simp [typed, type]
    rw [same, put_self there]
  | none =>
    simp only [there, uncut, Option.isNone_some, Bool.false_eq_true, or_false, if_false]
    cases inferred : typeByName host name with
    | none =>
      have same : typed host name iface = iface := by
        funext leaf
        by_cases own : leaf = .type
        · simp [typed, own, type, uncut, inferred]
        · simp [typed, own]
      rw [same, put_self there]
    | some t =>
      have same : typed host name iface = Function.update iface .type (some t) := by
        funext leaf
        by_cases own : leaf = .type
        · simp [typed, own, type, uncut, inferred]
        · simp [typed, own]
      rw [same, ← set_eq_put there]

theorem pair_eq_put {c : Candidate} (missing : c peer = none) (name : String) :
    c.pair peer name = c.put peer (otherEnd name) := by
  funext other
  by_cases own : other = peer
  · subst own
    simp only [Candidate.pair, Candidate.set, Candidate.put, Candidate.get, missing, Function.update_self, if_true,
      Option.bind_some, Option.bind_none, Option.some.injEq]
    funext leaf
    cases leaf <;> simp [otherEnd]
  · simp [Candidate.pair, Candidate.set, Candidate.put, own]

theorem nitems_plain (plain : apostrophe ∉ name.toList) (c : Candidate) :
    nitems host c name = some (if c name = none then 0 else 1) := by
  rw [nitems, if_neg plain]
  cases c name <;> rfl

theorem role_pair_iff : role name iface = .pair peer ↔
    isCut name.toList = false ∧ iface .type = some vethType ∧ iface .peer = some peer := by
  rw [role]
  split
  · rename_i cut
    simp [cut]
  · rename_i uncut
    rw [and_iff_right (Bool.not_eq_true _ ▸ uncut)]
    split
    · rename_i veth
      cases named : iface .peer with
      | none => simp
      | some other => simp [veth]
    · rename_i other
      simp only [other, false_and, iff_false]
      split
      · split
        · split <;> simp
        · simp
      · simp

theorem role_vlan_iff : role name iface = .vlan parent digits ↔ isCut name.toList = false ∧
    iface .type = some l2vlanType ∧ rindexDot name = some (parent, digits) ∧
      oneOrMore Char.isDigit digits.toList = true ∧ 1 ≤ strtol digits ∧ strtol digits ≤ 4095 := by
  rw [role]
  split
  · rename_i cut
    simp [cut]
  · rename_i uncut
    rw [and_iff_right (Bool.not_eq_true _ ▸ uncut)]
    split
    · rename_i veth
      have other : iface .type ≠ some l2vlanType := by
        rw [veth]
        decide
      simp only [other, false_and, iff_false]
      split <;> simp
    · split
      · rename_i vlan
        cases split' : rindexDot name with
        | none => simp
        | some parts =>
          obtain ⟨p, d⟩ := parts
          simp only [vlan, Option.some.injEq, Prod.mk.injEq, true_and]
          constructor
          · intro same
            split at same
            · rename_i number
              cases same
              exact ⟨⟨rfl, rfl⟩, number⟩
            · cases same
          · rintro ⟨⟨rfl, rfl⟩, number⟩
            rw [if_pos number]
      · rename_i other
        simp [other]

variable {c : Candidate}

theorem get_of_there (there : c name = some iface) (leaf : Leaf) : c.get name leaf = iface leaf := by
  rw [Candidate.get, there]
  rfl

theorem inferVeth_put (host : Host) (there : c name = some iface) (uncut : isCut name.toList = false)
    (plain : ∀ peer, iface .peer = some peer → apostrophe ∉ peer.toList) :
    inferVeth host c name = ⟨match role name iface with
      | .pair peer => if c peer = none then c.put peer (otherEnd name) else c
      | _ => c, .ok⟩ := by
  rw [inferVeth, read_of_there there uncut, read_of_there there uncut]
  by_cases veth : iface .type = some vethType
  · rw [if_neg (not_not.mpr veth)]
    cases named : iface .peer with
    | none => simp [role, uncut, veth, named]
    | some peer =>
      have isPair : role name iface = .pair peer := role_pair_iff.mpr ⟨uncut, veth, named⟩
      simp only [nitems_plain (plain peer named), isPair]
      by_cases missing : c peer = none
      · rw [if_pos missing, if_pos missing, ← pair_eq_put missing]
        simp only [setNamed, if_neg (plain peer named)]
        rfl
      · rw [if_neg missing, if_neg missing]
  · rw [if_pos veth]
    have other : ∀ peer, role name iface ≠ .pair peer := fun peer same => veth (role_pair_iff.mp same).2.1
    split
    · rename_i peer same
      exact absurd same (other peer)
    · rfl

theorem fill_put (there : c name = some iface) (leaf : Leaf) (value : String) :
    c.fill name leaf value = c.put name (Function.update iface leaf (some ((iface leaf).getD value))) := by
  rw [Candidate.fill, get_of_there there]
  cases old : iface leaf with
  | none => exact set_eq_put there leaf value
  | some v =>
    have same : Function.update iface leaf (some v) = iface := by rw [← old, Function.update_eq_self]
    simp only [Option.isNone_some, Bool.false_eq_true, if_false, Option.getD_some]
    rw [same, put_self there]

theorem fillVlan_put (there : c name = some iface) (parent digits : String) :
    fillVlan c name parent digits =
      ⟨c.put name (filled iface parent digits), if iface .vlanId = none ∧ vlanid digits = none then failed else .ok⟩ := by
  let tagged := Function.update (Function.update iface .parentInterface (some ((iface .parentInterface).getD parent)))
    .tagType (some ((iface .tagType).getD cVlan))
  have both : (c.fill name .parentInterface parent).fill name .tagType cVlan = c.put name tagged := by
    rw [fill_put there, fill_put (put_own _ _ _), put_put]
    simp [tagged]
  have vid : (c.put name tagged).get name .vlanId = iface .vlanId := by
    rw [get_of_there (put_own _ _ _)]
    simp [tagged]
  have rest (last : Option String) (same : last = (iface .vlanId).or ((vlanid digits).map toString)) :
      Function.update tagged .vlanId last = filled iface parent digits := by
    funext leaf
    cases leaf <;> simp [tagged, filled, same]
  have keep : tagged .vlanId = iface .vlanId := by simp [tagged]
  rw [fillVlan, both, vid]
  cases present : iface .vlanId with
  | some v =>
    have same := rest (tagged .vlanId) (by rw [keep, present]; rfl)
    rw [Function.update_eq_self] at same
    simp [same]
  | none =>
    cases read : vlanid digits with
    | none =>
      have same := rest (tagged .vlanId) (by rw [keep, present, read]; rfl)
      rw [Function.update_eq_self] at same
      simp [same]
    | some n =>
      have same := rest (some (toString n)) (by rw [present, read]; rfl)
      simp only [Option.isNone_none, if_true, set_eq_put (put_own _ _ _), put_put, same]
      simp

theorem inferVlan_put (there : c name = some iface) (uncut : isCut name.toList = false)
    (plain : ∀ parent digits, rindexDot name = some (parent, digits) → apostrophe ∉ parent.toList) :
    inferVlan host c name = match role name iface with
      | .vlan parent digits => if c parent = none then ⟨c, .ok⟩ else fillVlan c name parent digits
      | _ => ⟨c, .ok⟩ := by
  have idle (other : ∀ p d, role name iface ≠ .vlan p d) : (⟨c, .ok⟩ : Result) = match role name iface with
      | .vlan parent digits => if c parent = none then ⟨c, .ok⟩ else fillVlan c name parent digits
      | _ => ⟨c, .ok⟩ := by
    split
    · rename_i p d same
      exact absurd same (other p d)
    · rfl
  rw [inferVlan, read_of_there there uncut]
  by_cases vlan : iface .type = some l2vlanType
  · rw [if_neg (not_not.mpr vlan)]
    cases split : rindexDot name with
    | none => exact idle fun p d same => by simp [(role_vlan_iff.mp same).2.2.1] at split
    | some parts =>
      obtain ⟨parent, digits⟩ := parts
      have unlike (bad : ¬(oneOrMore Char.isDigit digits.toList = true ∧ 1 ≤ strtol digits ∧ strtol digits ≤ 4095)) :
          ∀ p d, role name iface ≠ .vlan p d := by
        intro p d same
        obtain ⟨-, -, split', number⟩ := role_vlan_iff.mp same
        rw [split] at split'
        cases split'
        exact bad number
      by_cases number : oneOrMore Char.isDigit digits.toList = true
      · by_cases range : strtol digits < 1 ∨ strtol digits > 4095
        · simp only [number, Bool.not_true, Bool.false_eq_true, if_false, if_pos range]
          exact idle (unlike fun good => by omega)
        · have isVlan : role name iface = .vlan parent digits :=
            role_vlan_iff.mpr ⟨uncut, vlan, split, number, by omega, by omega⟩
          simp only [number, Bool.not_true, Bool.false_eq_true, if_false, if_neg range, isVlan,
            nitems_plain (plain parent digits split)]
          by_cases missing : c parent = none
          · rw [if_pos missing, if_pos missing]
          · rw [if_neg missing, if_neg missing]
      · simp only [number, Bool.not_false, if_true]
        exact idle (unlike fun good => number good.1)
  · rw [if_pos vlan]
    exact idle fun p d same => vlan (role_vlan_iff.mp same).2.1

theorem put_none_iff (there : c name = some iface) (new : Iface) (other : String) :
    c.put name new other = none ↔ c other = none := by
  by_cases own : other = name
  · subst own
    simp [put_own, there]
  · rw [put_other c new own]

theorem andThen_ok (c : Candidate) (next : Candidate → Result) : (⟨c, .ok⟩ : Result).andThen next = next c := rfl

/-- For an interface whose name is cut there is an error. -/
theorem infer_cut (host : Host) (c : Candidate) (cut : isCut name.toList = true) : infer host c name = ⟨c, .internal⟩ := by
  have first : inferType host c name = ⟨c, .internal⟩ := by
    rw [inferType, c.read_of_cut cut]
    exact if_pos (.inl cut)
  rw [infer, first]
  rfl

/-- All that the inference does for another one, by its role. -/
theorem infer_put (host : Host) (there : c name = some iface) (uncut : isCut name.toList = false) (own : apostrophe ∉ name.toList)
    (peers : ∀ peer, iface .peer = some peer → apostrophe ∉ peer.toList) :
    infer host c name = match role name (typed host name iface) with
      | .single => ⟨c.put name (typed host name iface), .ok⟩
      | .pair peer =>
        ⟨if c peer = none then (c.put name (typed host name iface)).put peer (otherEnd name)
          else c.put name (typed host name iface), .ok⟩
      | .vlan parent digits =>
        if c parent = none then ⟨c.put name (typed host name iface), .ok⟩
        else ⟨c.put name (filled (typed host name iface) parent digits),
          if typed host name iface .vlanId = none ∧ vlanid digits = none then failed else .ok⟩ := by
  have parents : ∀ parent digits, rindexDot name = some (parent, digits) → apostrophe ∉ parent.toList := by
    intro parent digits split odd
    refine own ?_
    rw [rindexDot_eq split, String.toList_append, String.toList_append]
    exact List.mem_append_left _ (List.mem_append_left _ odd)
  have now := put_own c name (typed host name iface)
  have veth := inferVeth_put host now uncut fun peer named => peers peer named
  rw [infer, inferType_put there uncut, andThen_ok, veth, andThen_ok]
  cases isRole : role name (typed host name iface) with
  | single => rw [inferVlan_put now uncut parents, isRole]
  | vlan parent digits =>
    simp only [inferVlan_put now uncut parents, isRole, put_none_iff there, fillVlan_put now, put_put]
  | pair peer =>
    simp only [put_none_iff there]
    split
    · rename_i missing
      have apart : name ≠ peer := by
        rintro rfl
        rw [there] at missing
        cases missing
      have still : (c.put name (typed host name iface)).put peer (otherEnd name) name = some (typed host name iface) := by
        rw [put_other _ _ apart, now]
      rw [inferVlan_put still uncut parents, isRole]
    · rw [inferVlan_put now uncut parents, isRole]

end Single

section Progress
variable {host : Host} {c : Candidate}

/-- What the inference starts from for an interface. -/
def base (host : Host) (c : Candidate) (name : String) : Iface := typed host name ((c name).getD fun _ => none)

def roleOf (host : Host) (c : Candidate) (name : String) : Role := role name (base host c name)

/-- What it ends with, if nothing else is inferred. -/
def final (host : Host) (c : Candidate) (name : String) : Iface :=
  match roleOf host c name with
  | .vlan parent digits => if c parent = none then base host c name else filled (base host c name) parent digits
  | _ => base host c name

/-- The candidate once the inference is done for some of the interfaces. -/
def after (host : Host) (c : Candidate) (done : List String) : Candidate := fun name =>
  match c name with
  | some iface => some (if name ∈ done then final host c name else iface)
  | none => (done.find? fun other => roleOf host c other = .pair name).map otherEnd

/-- A candidate whose names can be quoted, in which no two interfaces name the same
missing peer and the numbers after dots are VLAN ids. -/
structure WellFormed (c : Candidate) : Prop where
  names : ∀ name, c name ≠ none → apostrophe ∉ name.toList
  quotable : ∀ name peer, c.get name .peer = some peer → apostrophe ∉ peer.toList
  peers : ∀ a b peer, c.get a .peer = some peer → c.get b .peer = some peer → c peer = none → a = b
  suffixes : ∀ name parent digits, c name ≠ none → rindexDot name = some (parent, digits) →
    oneOrMore Char.isDigit digits.toList = true → 1 ≤ strtol digits ∧ strtol digits ≤ 4094

theorem typed_typed (name : String) (iface : Iface) : typed host name (typed host name iface) = typed host name iface := by
  funext leaf
  by_cases own : leaf = .type
  · subst own
    cases cut : isCut name.toList with
    | true => simp [typed, cut]
    | false => by_cases untyped : iface .type = none <;> simp [typed, cut, untyped]
  · simp [typed, own]

theorem filled_filled (iface : Iface) (parent digits : String) :
    filled (filled iface parent digits) parent digits = filled iface parent digits := by
  funext leaf
  cases leaf with
  | vlanId =>
    simp only [filled]
    cases iface .vlanId <;> cases vlanid digits <;> rfl
  | _ => simp [filled]

theorem role_congr (type : a .type = b .type) (peer : a .peer = b .peer) (name : String) : role name a = role name b := by
  simp only [role, type, peer]

theorem base_of (there : c name = some iface) : base host c name = typed host name iface := by
  rw [base, there]
  rfl

theorem base_peer (host : Host) (c : Candidate) (name : String) : base host c name .peer = c.get name .peer := by
  cases there : c name with
  | none => simp [base, there, typed, Candidate.get]
  | some iface => simp [base_of there, typed, get_of_there there]

theorem final_cases (host : Host) (c : Candidate) (name : String) :
    final host c name = base host c name ∨
      ∃ parent digits, roleOf host c name = .vlan parent digits ∧ c parent ≠ none ∧
        final host c name = filled (base host c name) parent digits := by
  rw [final]
  cases isRole : roleOf host c name with
  | single => exact .inl rfl
  | pair peer => exact .inl rfl
  | vlan parent digits =>
    by_cases missing : c parent = none
    · exact .inl (if_pos missing)
    · exact .inr ⟨parent, digits, rfl, missing, if_neg missing⟩

/-- What has been inferred is not inferred again. -/
theorem typed_final (host : Host) (c : Candidate) (name : String) :
    typed host name (final host c name) = final host c name ∧ role name (final host c name) = roleOf host c name := by
  rcases final_cases host c name with same | ⟨parent, digits, isVlan, -, same⟩
  · rw [same]
    exact ⟨typed_typed _ _, rfl⟩
  · rw [same]
    refine ⟨?_, role_congr rfl rfl name⟩
    have type : base host c name .type = some l2vlanType := (role_vlan_iff.mp isVlan).2.1
    funext leaf
    by_cases own : leaf = .type
    · subst own
      simp [typed, filled, type]
    · simp [typed, own]

/-- The interface that stands for a missing peer is named by one other at most. -/
theorem WellFormed.creator (wf : WellFormed c) (missing : c peer = none) (first : roleOf host c a = .pair peer)
    (second : roleOf host c b = .pair peer) : a = b := by
  have nameA := (role_pair_iff.mp first).2.2
  have nameB := (role_pair_iff.mp second).2.2
  rw [base_peer] at nameA nameB
  exact wf.peers a b peer nameA nameB missing

theorem after_known (there : c name = some iface) (done : List String) :
    after host c done name = some (if name ∈ done then final host c name else iface) := by
  rw [after, there]

theorem after_missing (missing : c name = none) (done : List String) :
    after host c done name = (done.find? fun other => roleOf host c other = .pair name).map otherEnd := by
  rw [after, missing]

/-- A missing interface is there once one that names it is done. -/
theorem after_created_iff (missing : c name = none) (done : List String) :
    after host c done name ≠ none ↔ ∃ other ∈ done, roleOf host c other = .pair name := by
  rw [after_missing missing, ne_eq, Option.map_eq_none_iff, List.find?_eq_none]
  simp

theorem after_nil (host : Host) (c : Candidate) : after host c [] = c := by
  funext name
  cases there : c name with
  | none => simp [after_missing there]
  | some iface => simp [after_known there]

/-- An interface is done, and no peer is missing for it. -/
theorem after_cons (wf : WellFormed c) (there : c name = some iface)
    (present : ∀ peer, roleOf host c name = .pair peer → after host c done peer ≠ none) :
    (after host c done).put name (final host c name) = after host c (name :: done) := by
  funext other
  by_cases own : other = name
  · subst own
    rw [put_own, after_known there, if_pos List.mem_cons_self]
  · rw [put_other _ _ own]
    cases known : c other with
    | some i =>
      rw [after_known known, after_known known]
      simp [own]
    | none =>
      rw [after_missing known, after_missing known, List.find?_cons]
      by_cases creates : roleOf host c name = .pair other
      · obtain ⟨z, member, pair⟩ := (after_created_iff known done).mp (present other creates)
        have same : (done.find? fun o => roleOf host c o = .pair other) = some name := by
          cases found : done.find? fun o => roleOf host c o = .pair other with
          | none => exact absurd pair (by simpa using List.find?_eq_none.mp found z member)
          | some w =>
            have names : roleOf host c w = .pair other := by simpa using List.find?_some found
            rw [wf.creator known names creates]
        rw [same, decide_eq_true creates]
      · rw [decide_eq_false creates]

/-- An interface is done, and its peer is created. -/
theorem after_cons_pair (there : c name = some iface) (creates : roleOf host c name = .pair peer)
    (missing : after host c done peer = none) :
    ((after host c done).put name (final host c name)).put peer (otherEnd name) = after host c (name :: done) := by
  have gone : c peer = none := by
    cases known : c peer with
    | none => rfl
    | some i => rw [after_known known] at missing; cases missing
  funext other
  by_cases isPeer : other = peer
  · subst isPeer
    rw [put_own, after_missing gone, List.find?_cons, decide_eq_true creates]
    rfl
  · rw [put_other _ _ isPeer]
    by_cases own : other = name
    · subst own
      rw [put_own, after_known there, if_pos List.mem_cons_self]
    · rw [put_other _ _ own]
      cases known : c other with
      | some i =>
        rw [after_known known, after_known known]
        simp [own]
      | none =>
        have differs : roleOf host c name ≠ .pair other := by
          rw [creates]
          simpa using Ne.symm isPeer
        rw [after_missing known, after_missing known, List.find?_cons, decide_eq_false differs]

/-- An interface whose name is cut, or a VLAN whose parent is there and whose number is
refused. -/
def Blocked (host : Host) (c : Candidate) (done : List String) (name : String) : Prop :=
  isCut name.toList = true ∨ ∃ parent digits, roleOf host c name = .vlan parent digits ∧
    after host c done parent ≠ none ∧ Refused (base host c name) digits

/-- A VLAN whose parent is created by one of the changes has nothing to be filled in. -/
def NoneLate (host : Host) (c : Candidate) (names : List String) : Prop :=
  ∀ x ∈ names, ∀ y ∈ names, ∀ parent digits, roleOf host c x = .pair parent → c parent = none →
    roleOf host c y = .vlan parent digits → filled (base host c y) parent digits = base host c y

section Step
variable {done : List String}

/-- What the inference finds when others have been done: the interface as it was or as it
has become, of the same role. -/
structure Found (host : Host) (c : Candidate) (done : List String) (name : String) (now : Iface) : Prop where
  here : after host c done name = some now
  start : typed host name now = base host c name ∨ typed host name now = final host c name

theorem exists_found (host : Host) (there : c name ≠ none) (done : List String) : ∃ now, Found host c done name now := by
  obtain ⟨iface, there⟩ := Option.ne_none_iff_exists'.mp there
  refine ⟨_, after_known there done, ?_⟩
  by_cases before : name ∈ done
  · exact .inr (by rw [if_pos before, (typed_final host c name).1])
  · exact .inl (by rw [if_neg before, base_of there])

namespace Found
variable {now : Iface}

theorem role_eq (found : Found host c done name now) : role name (typed host name now) = roleOf host c name := by
  rcases found.start with same | same
  · rw [same]
    rfl
  · rw [same]
    exact (typed_final host c name).2

theorem peer_eq (found : Found host c done name now) : now .peer = c.get name .peer := by
  have own : typed host name now .peer = now .peer := by simp [typed]
  rw [← own, ← base_peer host]
  rcases found.start with same | same
  · rw [same]
  · rw [same]
    rcases final_cases host c name with plain | ⟨parent, digits, -, -, vlan⟩
    · rw [plain]
    · rw [vlan]
      rfl

/-- Where nothing but the type is inferred, that is the end of it. -/
theorem typed_eq (found : Found host c done name now) (whole : final host c name = base host c name) :
    typed host name now = final host c name := by
  rcases found.start with same | same
  · rw [same, whole]
  · exact same

theorem refused_iff (found : Found host c done name now) (isVlan : roleOf host c name = .vlan parent digits) :
    Refused (typed host name now) digits ↔ Refused (base host c name) digits := by
  refine and_congr_left fun denied => ?_
  rcases found.start with same | same
  · rw [same]
  · rw [same, final, isVlan]
    dsimp only
    split
    · rfl
    · simp [filled, denied]

/-- A VLAN that is filled in is at its end. -/
theorem filled_eq (found : Found host c done name now) (isVlan : roleOf host c name = .vlan parent digits)
    (present : after host c done parent ≠ none)
    (late : ∀ x ∈ done, roleOf host c x = .pair parent → c parent = none →
      filled (base host c name) parent digits = base host c name) :
    filled (typed host name now) parent digits = final host c name := by
  have isFinal : final host c name =
      if c parent = none then base host c name else filled (base host c name) parent digits := by rw [final, isVlan]
  by_cases missing : c parent = none
  · obtain ⟨x, member, creates⟩ := (after_created_iff missing done).mp present
    have nothing := late x member creates missing
    rw [if_pos missing] at isFinal
    rw [found.typed_eq isFinal, isFinal, nothing]
  · rw [if_neg missing] at isFinal
    rcases found.start with same | same
    · rw [same, isFinal]
    · rw [same, isFinal, filled_filled]

end Found

/-- A name that is cut is one of an interface that stays what it is. -/
theorem final_of_cut (host : Host) (there : c name = some iface) (cut : isCut name.toList = true) :
    final host c name = iface := by
  have single : roleOf host c name = .single := by rw [roleOf, role, if_pos cut]
  have same : base host c name = iface := by
    rw [base_of there]
    funext leaf
    simp [typed, cut]
  rw [final, single]
  exact same

theorem infer_after_cut (host : Host) (wf : WellFormed c) (there : c name = some iface) (cut : isCut name.toList = true)
    (done : List String) : (infer host (after host c done) name).candidate = after host c (name :: done) ∧
      (infer host (after host c done) name).err ≠ .ok := by
  have single : roleOf host c name = .single := by rw [roleOf, role, if_pos cut]
  have whole := final_of_cut host there cut
  have here : after host c done name = some (final host c name) := by rw [after_known there, whole, ite_self]
  rw [infer_cut host _ cut]
  refine ⟨?_, by simp⟩
  rw [← after_cons wf there (by simp [single]), put_self here]

theorem infer_after_pair (host : Host) (wf : WellFormed c) (there : c name = some iface) (found : Found host c done name now)
    (isPair : roleOf host c name = .pair peer) :
    (if after host c done peer = none then ((after host c done).put name (typed host name now)).put peer (otherEnd name)
      else (after host c done).put name (typed host name now)) = after host c (name :: done) := by
  rw [found.typed_eq (by rw [final, isPair])]
  split
  · rename_i missing
    exact after_cons_pair there isPair missing
  · rename_i present
    refine after_cons wf there fun q again => ?_
    cases isPair.symm.trans again
    exact present

theorem infer_after_vlan (host : Host) (wf : WellFormed c) (there : c name = some iface) (found : Found host c done name now)
    (isVlan : roleOf host c name = .vlan parent digits)
    (late : ∀ x ∈ done, roleOf host c x = .pair parent → c parent = none →
      filled (base host c name) parent digits = base host c name) :
    (after host c done).put name (if after host c done parent = none then typed host name now
      else filled (typed host name now) parent digits) = after host c (name :: done) := by
  have cons : (after host c done).put name (final host c name) = after host c (name :: done) :=
    after_cons wf there (by simp [isVlan])
  split
  · rename_i gone
    have missing : c parent = none := by
      cases old : c parent with
      | none => rfl
      | some i => rw [after_known old] at gone; cases gone
    rw [found.typed_eq (by rw [final, isVlan]; exact if_pos missing), cons]
  · rename_i present
    rw [found.filled_eq isVlan present late, cons]

/-- One inference, from wherever others have got to. -/
theorem infer_after (host : Host) (wf : WellFormed c) (there : c name = some iface)
    (late : ∀ x ∈ done, ∀ parent digits, roleOf host c x = .pair parent → c parent = none →
      roleOf host c name = .vlan parent digits → filled (base host c name) parent digits = base host c name) :
    (infer host (after host c done) name).candidate = after host c (name :: done) ∧
      ((infer host (after host c done) name).err = .ok ↔ ¬Blocked host c done name) := by
  have known : c name ≠ none := by rw [there]; exact Option.some_ne_none _
  obtain ⟨now, found⟩ := exists_found host known done
  cases cut : isCut name.toList with
  | true =>
    obtain ⟨same, error⟩ := infer_after_cut host wf there cut done
    exact ⟨same, iff_of_false error (not_not.mpr (.inl cut))⟩
  | false =>
    have result := infer_put host found.here cut (wf.names name known) fun p named =>
      wf.quotable name p (found.peer_eq ▸ named)
    rw [found.role_eq] at result
    cases isRole : roleOf host c name with
    | single =>
      rw [result, isRole]
      refine ⟨?_, by simp [Blocked, isRole, cut]⟩
      rw [found.typed_eq (by rw [final, isRole])]
      exact after_cons wf there (by simp [isRole])
    | pair peer =>
      rw [result, isRole]
      exact ⟨infer_after_pair host wf there found isRole, by simp [Blocked, isRole, cut]⟩
    | vlan parent digits =>
      have step := infer_after_vlan host wf there found isRole fun x member creates missing =>
        late x member parent digits creates missing isRole
      rw [result, isRole]
      dsimp only
      by_cases gone : after host c done parent = none
      · rw [if_pos gone] at step ⊢
        exact ⟨step, by simp [Blocked, isRole, cut, gone]⟩
      · rw [if_neg gone] at step ⊢
        refine ⟨step, ?_⟩
        have blocked : Blocked host c done name ↔ Refused (typed host name now) digits := by
          rw [found.refused_iff isRole]
          simp [Blocked, isRole, cut, gone]
        rw [blocked, Refused]
        dsimp only
        split
        · rename_i both
          simp [both, failed]
        · rename_i fine
          simp [fine]

end Step

end Progress

section Runs
variable {host : Host} {c : Candidate} {names : List String}

/-- The interfaces of the changes that are looked at, in their order. -/
def processed (changes : List Change) : List String :=
  (changes.filter fun change => change.op = .created ∨ change.op = .modified).map Change.name

def inferAll (host : Host) : Candidate → List String → Candidate
  | c, [] => c
  | c, name :: later =>
    let result := infer host c name
    if result.err = .ok then inferAll host result.candidate later else result.candidate

theorem ifchangeCand_eq (host : Host) (c : Candidate) (changes : List Change) :
    ifchangeCand host c changes = inferAll host c (processed changes) := by
  induction changes generalizing c with
  | nil => rfl
  | cons change later ih =>
    rw [ifchangeCand, processed, List.filter_cons]
    split
    · rename_i looked
      rw [if_pos (decide_eq_true looked), List.map_cons, inferAll]
      dsimp only
      rw [ih]
      rfl
    · rename_i skipped
      rw [if_neg (by simpa using skipped)]
      exact ih c

theorem inferAll_cons_fills (host : Host) (c : Candidate) (name : String) (later : List String) :
    Fills (infer host c name).candidate (inferAll host c (name :: later)) := by
  induction later generalizing c name with
  | nil =>
    rw [inferAll]
    split <;> exact .refl _
  | cons next later ih =>
    rw [inferAll]
    split
    · exact (infer_fills host _ next).trans (ih _ next)
    · exact .refl _

theorem after_mono (subset : done ⊆ done') (there : after host c done name ≠ none) : after host c done' name ≠ none := by
  cases known : c name with
  | some iface =>
    rw [after_known known]
    exact Option.some_ne_none _
  | none =>
    obtain ⟨other, member, creates⟩ := (after_created_iff known done).mp there
    exact (after_created_iff known done').mpr ⟨other, subset member, creates⟩

theorem Blocked.mono (subset : done ⊆ done') (blocked : Blocked host c done name) : Blocked host c done' name := by
  refine blocked.imp_right ?_
  rintro ⟨parent, digits, vlan, there, refused⟩
  exact ⟨parent, digits, vlan, after_mono subset there, refused⟩

/-- A run does some of the interfaces, and all of them unless one is blocked. -/
theorem inferAll_after (wf : WellFormed c) (known : ∀ name ∈ names, c name ≠ none) (late : NoneLate host c names)
    (done list : List String) (inside : done ⊆ names) (listed : list ⊆ names) :
    ∃ done', done ⊆ done' ∧ done' ⊆ names ∧ inferAll host (after host c done) list = after host c done' ∧
      ((∀ name ∈ list, name ∈ done') ∨ ∃ y ∈ done', Blocked host c done' y) := by
  induction list generalizing done with
  | nil => exact ⟨done, fun _ member => member, inside, rfl, .inl (by simp)⟩
  | cons name later ih =>
    obtain ⟨here, rest⟩ := List.cons_subset.mp listed
    obtain ⟨iface, there⟩ := Option.ne_none_iff_exists'.mp (known name here)
    obtain ⟨candidate, ok⟩ := infer_after host wf there fun x member parent digits creates missing vlan =>
      late x (inside member) name here parent digits creates missing vlan
    rw [inferAll, candidate]
    by_cases blocked : Blocked host c done name
    · rw [if_neg fun fine => ok.mp fine blocked]
      exact ⟨name :: done, List.subset_cons_self _ _, List.cons_subset.mpr ⟨here, inside⟩, rfl,
        .inr ⟨name, List.mem_cons_self, blocked.mono (List.subset_cons_self _ _)⟩⟩
    · rw [if_pos (ok.mpr blocked)]
      obtain ⟨done', more, inside', same, progress⟩ := ih (name :: done) (List.cons_subset.mpr ⟨here, inside⟩) rest
      refine ⟨done', fun x member => more (List.mem_cons_of_mem _ member), inside', same, ?_⟩
      rcases progress with all | stuck
      · refine .inl fun x member => ?_
        rcases List.mem_cons.mp member with rfl | later
        · exact more List.mem_cons_self
        · exact all x later
      · exact .inr stuck

/-- Something can be inferred for an interface: its type, its peer, or a leaf of a VLAN. -/
inductive Adds (host : Host) (c : Candidate) (name : String) : Prop
  | type (uncut : isCut name.toList = false) (untyped : c.get name .type = none) (byName : typeByName host name ≠ none)
  | peer (creates : roleOf host c name = .pair peer) (missing : c peer = none)
  | leaves (vlan : roleOf host c name = .vlan parent digits) (there : c parent ≠ none)
      (lacks : filled (base host c name) parent digits ≠ base host c name)

theorem final_type (host : Host) (c : Candidate) (name : String) : final host c name .type = base host c name .type := by
  rcases final_cases host c name with same | ⟨parent, digits, -, -, same⟩
  · rw [same]
  · rw [same]
    rfl

theorem adds_iff (known : c name ≠ none) : Adds host c name ↔ after host c [name] ≠ c := by
  obtain ⟨iface, there⟩ := Option.ne_none_iff_exists'.mp known
  have here : after host c [name] name = some (final host c name) := by
    rw [after_known there, if_pos List.mem_cons_self]
  constructor
  · intro adds same
    rw [same, there, Option.some.injEq] at here
    cases adds with
    | type uncut untyped byName =>
      rw [get_of_there there] at untyped
      have type : iface .type = typeByName host name := by
        rw [here, final_type, base_of there, typed, if_pos ⟨rfl, untyped, uncut⟩]
      exact byName (type.symm.trans untyped)
    | peer creates missing =>
      have created := (after_created_iff missing [name]).mpr ⟨name, List.mem_cons_self, creates⟩
      rw [same] at created
      exact created missing
    | @leaves parent digits vlan present lacks =>
      have isFilled : final host c name = filled (base host c name) parent digits := by
        rw [final, vlan]
        exact if_neg present
      have isBase : base host c name = final host c name := by
        rw [base_of there, here, (typed_final host c name).1]
      exact lacks (isFilled.symm.trans isBase.symm)
  · intro differs
    by_contra nothing
    refine differs (funext fun other => ?_)
    cases old : c other with
    | none =>
      by_contra created
      obtain ⟨one, own, creates⟩ := (after_created_iff old [name]).mp created
      obtain rfl := List.mem_singleton.mp own
      exact nothing (.peer creates old)
    | some i =>
      rw [after_known old]
      by_cases own : other = name
      · subst own
        cases there.symm.trans old
        have isBase : base host c other = iface := by
          rw [base_of there]
          funext leaf
          rw [typed]
          split
          · rename_i untyped
            rw [untyped.1, untyped.2.1]
            by_contra byName
            exact nothing (.type untyped.2.2 (by rw [get_of_there there, untyped.2.1]) byName)
          · rfl
        rcases final_cases host c other with same | ⟨parent, digits, vlan, present, same⟩
        · rw [if_pos List.mem_cons_self, same, isBase]
        · have complete : filled (base host c other) parent digits = base host c other := by
            by_contra lacks
            exact nothing (.leaves vlan present lacks)
          rw [if_pos List.mem_cons_self, same, complete, isBase]
      · rw [if_neg (by simpa using own)]

theorem infer_alone (wf : WellFormed c) (known : c name ≠ none) :
    (infer host c name).candidate = after host c [name] ∧ ((infer host c name).err = .ok ↔ ¬Blocked host c [] name) := by
  obtain ⟨iface, there⟩ := Option.ne_none_iff_exists'.mp known
  have alone := infer_after host wf there fun x (member : x ∈ []) => absurd member List.not_mem_nil
  rwa [after_nil] at alone

/-- Interfaces for which nothing is added do not matter. -/
theorem after_eq (wf : WellFormed c) (known : ∀ name ∈ names, c name ≠ none) (inside : done ⊆ names)
    (active : ∀ name ∈ names, Adds host c name → name ∈ done) : after host c done = after host c names := by
  have idle : ∀ name ∈ names, name ∉ done → after host c [name] = c := by
    intro name member absent
    by_contra adds
    exact absent (active name member ((adds_iff (known name member)).mpr adds))
  funext name
  cases there : c name with
  | some iface =>
    rw [after_known there, after_known there]
    by_cases before : name ∈ done
    · rw [if_pos before, if_pos (inside before)]
    · rw [if_neg before]
      split
      · rename_i member
        have same := congrFun (idle name member before) name
        rw [after_known there, if_pos List.mem_cons_self, there] at same
        exact same.symm
      · rfl
  | none =>
    rw [after_missing there, after_missing there]
    cases found : names.find? fun other => roleOf host c other = .pair name with
    | none =>
      have none : (done.find? fun other => roleOf host c other = .pair name) = none :=
        List.find?_eq_none.mpr fun x member => List.find?_eq_none.mp found x (inside member)
      rw [none]
    | some z =>
      have creates : roleOf host c z = .pair name := by simpa using List.find?_some found
      have member : z ∈ done := by
        by_contra absent
        have same := congrFun (idle z (List.mem_of_find?_eq_some found) absent) name
        rw [there] at same
        exact (after_created_iff there [z]).mpr ⟨z, List.mem_cons_self, creates⟩ same
      cases first : done.find? fun other => roleOf host c other = .pair name with
      | none => exact absurd creates (by simpa using List.find?_eq_none.mp first z member)
      | some w =>
        have again : roleOf host c w = .pair name := by simpa using List.find?_some first
        rw [wf.creator there again creates]

/-- No change is late for another, and none that is refused, or that is in an interface
whose name is cut, keeps another from adding something. -/
structure Independent (host : Host) (c : Candidate) (names : List String) : Prop where
  late : NoneLate host c names
  cut : ∀ y ∈ names, isCut y.toList = true → ∀ z ∈ names, ¬Adds host c z
  refused : ∀ y ∈ names, ∀ parent digits, roleOf host c y = .vlan parent digits → Refused (base host c y) digits →
    (c parent ≠ none ∨ ∃ x ∈ names, roleOf host c x = .pair parent) →
    ∀ z ∈ names, Adds host c z → z = y ∨ (c parent = none ∧ roleOf host c z = .pair parent)

/-- Then every run ends with all of them done. -/
theorem Independent.ends (independent : Independent host c names) (wf : WellFormed c)
    (known : ∀ name ∈ names, c name ≠ none) (done list : List String) (inside : done ⊆ names) (listed : list ⊆ names)
    (all : names ⊆ done ++ list) : inferAll host (after host c done) list = after host c names := by
  obtain ⟨done', more, inside', same, progress⟩ := inferAll_after wf known independent.late done list inside listed
  rw [same]
  refine after_eq wf known inside' fun z member adds => ?_
  rcases progress with each | ⟨y, finished, cut | ⟨parent, digits, vlan, there, refused⟩⟩
  · rcases List.mem_append.mp (all member) with before | now
    · exact more before
    · exact each z now
  · exact absurd adds (independent.cut y (inside' finished) cut z member)
  · have present : c parent ≠ none ∨ ∃ x ∈ names, roleOf host c x = .pair parent := by
      by_cases missing : c parent = none
      · obtain ⟨x, created, pair⟩ := (after_created_iff missing done').mp there
        exact .inr ⟨x, inside' created, pair⟩
      · exact .inl missing
    rcases independent.refused y (inside' finished) parent digits vlan refused present z member adds with rfl | ⟨missing, creates⟩
    · exact finished
    · obtain ⟨x, created, pair⟩ := (after_created_iff missing done').mp there
      rw [wf.creator missing creates pair]
      exact created

section Other
variable {other name : String}

theorem set_other (c : Candidate) (apart : other ≠ name) (leaf : Leaf) (value : String) :
    c.set name leaf value other = c other := by
  rw [Candidate.set, if_neg apart]

theorem fill_other (c : Candidate) (apart : other ≠ name) (leaf : Leaf) (value : String) :
    c.fill name leaf value other = c other := by
  rw [Candidate.fill]
  split
  · exact set_other c apart leaf value
  · rfl

theorem inferType_other (apart : other ≠ name) : (inferType host c name).candidate other = c other := by
  rw [inferType]
  split
  · rfl
  · split
    · rfl
    · split
      · exact set_other c apart _ _
      · rfl

theorem inferVeth_other (there : c other ≠ none) : (inferVeth host c name).candidate other = c other := by
  rcases inferVeth_cases host c name with same | ⟨peer, -, missing, result⟩
  · rw [same]
  · have apart : other ≠ peer := by
      rintro rfl
      exact there missing
    rw [result]
    exact (set_other _ apart _ _).trans (set_other c apart _ _)

theorem inferVlan_other (apart : other ≠ name) : (inferVlan host c name).candidate other = c other := by
  by_cases named : ∃ parent digits, Named host c name parent digits
  · obtain ⟨parent, digits, named⟩ := named
    have tagged : (c.fill name .parentInterface parent).fill name .tagType cVlan other = c other :=
      (fill_other _ apart _ _).trans (fill_other c apart _ _)
    rw [inferVlan_named named, fillVlan]
    split
    · split
      · exact (set_other _ apart _ _).trans tagged
      · exact tagged
    · exact tagged
  · rw [inferVlan_unnamed fun parent digits known => named ⟨parent, digits, known⟩]

/-- Interfaces that are there are changed by their own inference only. -/
theorem infer_other (host : Host) (there : c other ≠ none) (apart : other ≠ name) :
    (infer host c name).candidate other = c other := by
  have first : (inferType host c name).candidate other = c other := inferType_other apart
  have second : ((inferType host c name).andThen (inferVeth host · name)).candidate other = c other := by
    rw [Result.andThen]
    split
    · rw [inferVeth_other (by rw [first]; exact there), first]
    · exact first
  rw [infer, Result.andThen]
  split
  · rw [inferVlan_other apart, second]
  · exact second

end Other

theorem inferAll_other (host : Host) (there : c other ≠ none) (absent : other ∉ list) :
    inferAll host c list other = c other := by
  induction list generalizing c with
  | nil => rfl
  | cons name later ih =>
    rw [List.mem_cons, not_or] at absent
    have kept := infer_other host there absent.1
    rw [inferAll]
    split
    · rw [ih (by rw [kept]; exact there) absent.2, kept]
    · exact kept

/-- The same inference again and again. -/
theorem inferAll_replicate (wf : WellFormed c) (known : c name ≠ none)
    (free : ∀ done', (∀ x ∈ done', x = name ∨ x ∈ done) → ¬Blocked host c done' name)
    (late : ∀ x ∈ name :: done, ∀ parent digits, roleOf host c x = .pair parent → c parent = none →
      roleOf host c name = .vlan parent digits → filled (base host c name) parent digits = base host c name)
    (k : Nat) (later : List String) :
    inferAll host (after host c done) (List.replicate k name ++ later) =
      inferAll host (after host c (List.replicate k name ++ done)) later := by
  obtain ⟨iface, there⟩ := Option.ne_none_iff_exists'.mp known
  induction k generalizing done with
  | zero => rfl
  | succ k ih =>
    obtain ⟨candidate, ok⟩ := infer_after host wf there fun x member => late x (List.mem_cons_of_mem _ member)
    have fine := ok.mpr (free done fun x member => .inr member)
    have again := @ih (name :: done)
      (fun done' inside => free done' fun x member => by
        rcases inside x member with own | listed
        · exact .inl own
        · exact List.mem_cons.mp listed)
      fun x member => late x (by
        rcases List.mem_cons.mp member with rfl | listed
        · exact List.mem_cons_self
        · exact listed)
    rw [List.replicate_succ, List.cons_append, inferAll, candidate, if_pos fine, again, ← List.replicate_succ,
      List.replicate_succ', List.append_assoc]
    rfl

/-- An interface to which something was added, and that is again what it was, has not
changed in between. -/
theorem Fills.between (first : Fills c d) (second : Fills d e) (old : c name = some iface) (now : d name = some iface')
    (again : e name = some iface) : iface' = iface := by
  funext leaf
  cases value : iface' leaf with
  | some v =>
    have kept := second.keeps name leaf v (by rw [get_of_there now, value])
    rw [get_of_there again] at kept
    exact kept.symm
  | none =>
    cases before : iface leaf with
    | none => rfl
    | some v =>
      have kept := first.keeps name leaf v (by rw [get_of_there old, before])
      rw [get_of_there now, value] at kept
      cases kept

end Runs

section Orders
variable {host : Host} {c : Candidate} {changes : List Change}

theorem processed_append (a b : List Change) : processed (a ++ b) = processed a ++ processed b := by
  simp [processed]

theorem processed_filter (q : String → Bool) (changes : List Change) :
    processed (changes.filter fun change => q change.name) = (processed changes).filter q := by
  rw [processed, processed, List.filter_map, List.filter_filter, List.filter_filter]
  congr 1
  refine List.filter_congr fun change _ => ?_
  exact Bool.and_comm _ _

/-- The changes of one interface may come first. -/
theorem exists_first (changes : List Change) (name : String) :
    ∃ list, list.Perm changes ∧ processed list =
      List.replicate ((processed changes).count name) name ++ (processed changes).filter (· ≠ name) := by
  refine ⟨changes.filter (fun change => change.name = name) ++ changes.filter (fun change => change.name ≠ name), ?_, ?_⟩
  · simpa using List.filter_append_perm (fun change : Change => decide (change.name = name)) changes
  · rw [processed_append, processed_filter (fun other => decide (other = name)),
      processed_filter (fun other => decide (other ≠ name)), List.filter_eq]

theorem count_succ {names : List String} (member : name ∈ names) : ∃ k, names.count name = k + 1 :=
  Nat.exists_eq_succ_of_ne_zero (List.count_pos_iff.mpr member).ne'

/-- Every order of the changes leads to the same candidate, and the same changes add
nothing a second time. -/
structure Stable (host : Host) (c : Candidate) (changes : List Change) : Prop where
  order : ∀ a b, a.Perm changes → b.Perm changes → ifchangeCand host c a = ifchangeCand host c b
  twice : ∀ list, list.Perm changes → ifchangeCand host (ifchangeCand host c list) list = ifchangeCand host c list

/-- A VLAN that comes before its parent is left as it is, and filled in by the second
run. -/
theorem Stable.late (stable : Stable host c changes) (wf : WellFormed c)
    (known : ∀ name ∈ processed changes, c name ≠ none) : NoneLate host c (processed changes) := by
  intro x listedX y listedY parent digits creates missing vlan
  obtain ⟨early, permX, orderX⟩ := exists_first changes x
  obtain ⟨before, permY, orderY⟩ := exists_first changes y
  obtain ⟨k, countX⟩ := count_succ listedX
  obtain ⟨m, countY⟩ := count_succ listedY
  obtain ⟨iface, there⟩ := Option.ne_none_iff_exists'.mp (known y listedY)
  have uncut : isCut y.toList = false := (role_vlan_iff.mp vlan).1
  have parentThere : ifchangeCand host c before parent ≠ none := by
    rw [stable.order before early permY permX, ifchangeCand_eq, orderX, countX, List.replicate_succ, List.cons_append]
    refine (inferAll_cons_fills host c x _).known parent ?_
    rw [(infer_alone wf (known x listedX)).1]
    exact (after_created_iff missing [x]).mpr ⟨x, List.mem_cons_self, creates⟩
  have own : ifchangeCand host c before y = some (base host c y) := by
    have alone : inferAll host (after host c []) (List.replicate (m + 1) y ++ (processed changes).filter (· ≠ y)) =
        inferAll host (after host c (List.replicate (m + 1) y ++ [])) ((processed changes).filter (· ≠ y)) := by
      refine inferAll_replicate wf (known y listedY) (fun done' only blocked => ?_) (fun z member p d pair => ?_) _ _
      · obtain ⟨p, d, again, present, -⟩ := blocked.resolve_left (by simp [uncut])
        cases vlan.symm.trans again
        obtain ⟨other, member, pair⟩ := (after_created_iff missing done').mp present
        rcases only other member with rfl | none
        · cases vlan.symm.trans pair
        · simp at none
      · obtain rfl := List.mem_singleton.mp member
        cases vlan.symm.trans pair
    have same : after host c (List.replicate (m + 1) y ++ []) y = some (base host c y) := by
      rw [after_known there, if_pos (by simp), final, vlan]
      simp [missing]
    rw [ifchangeCand_eq, orderY, countY, ← after_nil host c, alone, after_nil,
      inferAll_other host (by rw [same]; exact Option.some_ne_none _) (by simp), same]
  have fills : Fills (infer host (ifchangeCand host c before) y).candidate (ifchangeCand host c before) := by
    have twice := stable.twice before permY
    rw [ifchangeCand_eq host (ifchangeCand host c before), orderY, countY, List.replicate_succ, List.cons_append] at twice
    have added := inferAll_cons_fills host (ifchangeCand host c before) y
      (List.replicate m y ++ (processed changes).filter (· ≠ y))
    rwa [twice] at added
  have result := infer_put host own uncut (wf.names y (known y listedY)) fun p named =>
    wf.quotable y p ((base_peer host c y).symm.trans named)
  have isBase : typed host y (base host c y) = base host c y := typed_typed _ _
  have isRole : role y (base host c y) = .vlan parent digits := vlan
  rw [isBase, isRole] at result
  dsimp only at result
  rw [if_neg parentThere] at result
  have now : (infer host (ifchangeCand host c before) y).candidate y = some (filled (base host c y) parent digits) := by
    rw [result]
    exact put_own _ _ _
  exact Fills.between (infer_fills host _ y) fills own now own

/-- A run that stops without an interface shows that nothing is added for it. -/
theorem Stable.idle (stable : Stable host c changes) (wf : WellFormed c)
    (known : ∀ name ∈ processed changes, c name ≠ none) (listed : z ∈ processed changes) (perm : list.Perm changes)
    (stopped : ifchangeCand host c list = after host c done) (absent : z ∉ done) : ¬Adds host c z := by
  obtain ⟨early, permZ, orderZ⟩ := exists_first changes z
  obtain ⟨k, countZ⟩ := count_succ listed
  obtain ⟨iface, there⟩ := Option.ne_none_iff_exists'.mp (known z listed)
  have candidate : (infer host c z).candidate = after host c [z] := (infer_alone wf (known z listed)).1
  have fills : Fills (after host c [z]) (after host c done) := by
    rw [← stopped, stable.order list early perm permZ, ifchangeCand_eq, orderZ, countZ, List.replicate_succ,
      List.cons_append, ← candidate]
    exact inferAll_cons_fills host c z _
  rw [adds_iff (known z listed), not_not]
  funext name
  cases old : c name with
  | none =>
    by_contra created
    obtain ⟨other, own, creates⟩ := (after_created_iff old [z]).mp created
    obtain rfl := List.mem_singleton.mp own
    obtain ⟨x, member, again⟩ := (after_created_iff old done).mp (fills.known name created)
    rw [wf.creator old again creates] at member
    exact absent member
  | some i =>
    rw [after_known old]
    by_cases own : name = z
    · subst own
      have first : Fills c (after host c [name]) := candidate ▸ infer_fills host c name
      have same := Fills.between first fills old (after_known old [name])
        (by rw [after_known old, if_neg absent])
      rw [same]
    · rw [if_neg (by simpa using own)]

/-- An interface that is blocked from the start ends the run if it comes first. -/
theorem Blocked.stops (wf : WellFormed c) (known : ∀ name ∈ processed changes, c name ≠ none)
    (listed : y ∈ processed changes) (blocked : Blocked host c [] y) :
    ∃ list, list.Perm changes ∧ ifchangeCand host c list = after host c [y] := by
  obtain ⟨list, perm, order⟩ := exists_first changes y
  obtain ⟨m, count⟩ := count_succ listed
  obtain ⟨candidate, ok⟩ := infer_alone wf (known y listed)
  refine ⟨list, perm, ?_⟩
  rw [ifchangeCand_eq, order, count, List.replicate_succ, List.cons_append, inferAll, candidate,
    if_neg fun fine => ok.mp fine blocked]

/-- A VLAN that is refused ends the run, so that nothing may be added by the changes
that can come after it. -/
theorem Stable.refused (stable : Stable host c changes) (wf : WellFormed c)
    (known : ∀ name ∈ processed changes, c name ≠ none) (listedY : y ∈ processed changes)
    (vlan : roleOf host c y = .vlan parent digits) (refused : Refused (base host c y) digits)
    (present : c parent ≠ none ∨ ∃ x ∈ processed changes, roleOf host c x = .pair parent)
    (listedZ : z ∈ processed changes) (adds : Adds host c z) :
    z = y ∨ (c parent = none ∧ roleOf host c z = .pair parent) := by
  obtain ⟨before, permY, orderY⟩ := exists_first changes y
  obtain ⟨m, countY⟩ := count_succ listedY
  rw [countY, List.replicate_succ, List.cons_append] at orderY
  by_contra others
  obtain ⟨notY, notCreator⟩ := not_or.mp others
  by_cases missing : c parent = none
  · obtain ⟨x, listedX, creates⟩ := present.resolve_left (not_not.mpr missing)
    have apart : y ≠ x := by
      rintro rfl
      cases vlan.symm.trans creates
    obtain ⟨list, permX, orderX⟩ := exists_first before x
    have again : x ∈ processed before := by
      have perm : (processed before).Perm (processed changes) := (permY.filter _).map _
      exact perm.mem_iff.mpr listedX
    obtain ⟨k, countX⟩ := count_succ again
    have notX : z ≠ x := by
      rintro rfl
      exact notCreator ⟨missing, creates⟩
    rw [countX, orderY, List.filter_cons_of_pos (by simpa using apart)] at orderX
    -- the peer is created, and then the VLAN on it is refused
    let created := List.replicate (k + 1) x ++ []
    have blocked : Blocked host c created y :=
      .inr ⟨parent, digits, vlan, (after_created_iff missing _).mpr ⟨x, by simp [created], creates⟩, refused⟩
    have loop : ∀ later, inferAll host c (List.replicate (k + 1) x ++ later) = inferAll host (after host c created) later := by
      intro later
      have again : inferAll host (after host c []) (List.replicate (k + 1) x ++ later) =
          inferAll host (after host c created) later := by
        refine inferAll_replicate wf (known x listedX) (fun done' _ blocked => ?_) (fun w _ p d _ _ role => ?_) _ _
        · obtain ⟨p, d, role, -⟩ := blocked.resolve_left (by simp [(role_pair_iff.mp creates).1])
          cases creates.symm.trans role
        · cases creates.symm.trans role
      rwa [after_nil] at again
    have stopped : ifchangeCand host c list = after host c (y :: created) := by
      obtain ⟨iface, there⟩ := Option.ne_none_iff_exists'.mp (known y listedY)
      obtain ⟨candidate, ok⟩ := infer_after host wf there fun w (member : w ∈ created) p d pair gone role =>
        stable.late wf known w (by
          have same : w = x := by simpa [created] using member
          exact same ▸ listedX) y listedY p d pair gone role
      rw [ifchangeCand_eq, orderX, loop, inferAll, candidate, if_neg fun fine => ok.mp fine blocked]
    exact stable.idle wf known listedZ (permX.trans permY) stopped (by simp [created, notY, notX]) adds
  · have blocked : Blocked host c [] y := .inr ⟨parent, digits, vlan, by rwa [after_nil], refused⟩
    obtain ⟨list, perm, stopped⟩ := blocked.stops wf known listedY
    exact stable.idle wf known listedZ perm stopped (by simpa using notY) adds

/-- The same goes for an interface whose name is cut, which adds nothing itself. -/
theorem Stable.cut (stable : Stable host c changes) (wf : WellFormed c)
    (known : ∀ name ∈ processed changes, c name ≠ none) (listedY : y ∈ processed changes)
    (cut : isCut y.toList = true) (listedZ : z ∈ processed changes) : ¬Adds host c z := by
  obtain ⟨list, perm, stopped⟩ := Blocked.stops wf known listedY (.inl cut)
  by_cases own : z = y
  · subst own
    rw [adds_iff (known z listedZ), not_not, ← (infer_alone wf (known z listedZ)).1, infer_cut host c cut]
  · exact stable.idle wf known listedZ perm stopped (by simpa using own)

theorem Independent.stable (independent : Independent host c (processed changes)) (wf : WellFormed c)
    (known : ∀ name ∈ processed changes, c name ≠ none) : Stable host c changes := by
  have listed : ∀ list, list.Perm changes → ∀ name, name ∈ processed list ↔ name ∈ processed changes :=
    fun list perm name => ((perm.filter _).map Change.name).mem_iff
  have once : ∀ list, list.Perm changes → ifchangeCand host c list = after host c (processed changes) := by
    intro list perm
    have ends := independent.ends wf known [] (processed list) (List.nil_subset _)
      (fun name member => (listed list perm name).mp member) (fun name member => (listed list perm name).mpr member)
    rwa [after_nil, ← ifchangeCand_eq] at ends
  refine ⟨fun a b permA permB => (once a permA).trans (once b permB).symm, fun list perm => ?_⟩
  rw [once list perm, ifchangeCand_eq]
  exact independent.ends wf known (processed changes) (processed list) (List.Subset.refl _)
    (fun name member => (listed list perm name).mp member) (List.subset_append_left _ _)

/-- Neither the order of the changes nor a second run matters exactly when no VLAN that
still lacks a leaf sits on a peer that the changes create, and no VLAN whose number is
refused and no interface whose name is cut stands before a change that adds something. -/
theorem stable_iff (wf : WellFormed c) (known : ∀ name ∈ processed changes, c name ≠ none) :
    Stable host c changes ↔ Independent host c (processed changes) := by
  refine ⟨fun stable => ⟨stable.late wf known, fun y listedY cut z listedZ => ?_,
    fun y listedY parent digits vlan refused present z listedZ adds => ?_⟩, fun independent => independent.stable wf known⟩
  · exact stable.cut wf known listedY cut listedZ
  · exact stable.refused wf known listedY vlan refused present listedZ adds

/-- A veth whose peer is missing, and a VLAN. -/
def pairAndVlan (vlan : String) : Candidate := fun name =>
  if name = "veth0a" then some fun leaf => if leaf = .type then some vethType else if leaf = .peer then some "veth0b" else none
  else if name = "eth0" then some fun _ => none
  else if name = vlan then some fun leaf => if leaf = .type then some l2vlanType else none
  else none

theorem pairAndVlan_known (known : pairAndVlan vlan name ≠ none) : name = "veth0a" ∨ name = "eth0" ∨ name = vlan := by
  rw [pairAndVlan] at known
  split at known
  · exact .inl ‹_›
  · split at known
    · exact .inr (.inl ‹_›)
    · split at known
      · exact .inr (.inr ‹_›)
      · exact absurd rfl known

theorem pairAndVlan_peer (peer : (pairAndVlan vlan).get name .peer = some other) : name = "veth0a" ∧ other = "veth0b" := by
  rw [Candidate.get, pairAndVlan] at peer
  split at peer
  · rename_i own
    exact ⟨own, by simpa using peer.symm⟩
  · split at peer
    · simp at peer
    · split at peer <;> simp at peer

theorem pairAndVlan_wellFormed (plain : apostrophe ∉ vlan.toList) (dot : rindexDot vlan = some (parent, digits))
    (number : 1 ≤ strtol digits ∧ strtol digits ≤ 4094) : WellFormed (pairAndVlan vlan) := by
  refine ⟨fun name known => ?_, fun name peer named => ?_, fun a b peer first second _ => ?_,
    fun name other text known found _ => ?_⟩
  · rcases pairAndVlan_known known with rfl | rfl | rfl
    · decide +kernel
    · decide +kernel
    · exact plain
  · rw [(pairAndVlan_peer named).2]
    decide +kernel
  · rw [(pairAndVlan_peer first).1, (pairAndVlan_peer second).1]
  · rcases pairAndVlan_known known with rfl | rfl | rfl
    · exact absurd found (by
        have none : rindexDot "veth0a" = none := by decide +kernel
        rw [none]
        exact nofun)
    · exact absurd found (by
        have none : rindexDot "eth0" = none := by decide +kernel
        rw [none]
        exact nofun)
    · cases dot.symm.trans found
      exact number

/-- A VLAN on an interface that is there does not mind a pair beside it. -/
theorem stable_iff_eth0 :
    Stable bareHost (pairAndVlan "eth0.5") [⟨.created, "veth0a"⟩, ⟨.created, "eth0.5"⟩] := by
  have names : processed [⟨.created, "veth0a"⟩, ⟨.created, "eth0.5"⟩] = ["veth0a", "eth0.5"] := by decide +kernel
  have pair : roleOf bareHost (pairAndVlan "eth0.5") "veth0a" = .pair "veth0b" := by decide +kernel
  have vlan : roleOf bareHost (pairAndVlan "eth0.5") "eth0.5" = .vlan "eth0" "5" := by decide +kernel
  have dot : rindexDot "eth0.5" = some ("eth0", "5") := by decide +kernel
  refine (stable_iff (pairAndVlan_wellFormed (by decide +kernel) dot (by decide +kernel)) ?_).mpr ?_
  · rw [names]
    decide +kernel
  · rw [names]
    refine ⟨fun x listedX y listedY parent digits creates missing sits => ?_,
      fun y listedY cut => ?_, fun y listedY parent digits sits refused => ?_⟩
    · obtain rfl | rfl : y = "veth0a" ∨ y = "eth0.5" := by simpa using listedY
      · cases pair.symm.trans sits
      · cases vlan.symm.trans sits
        exact absurd missing (by decide +kernel)
    · obtain rfl | rfl : y = "veth0a" ∨ y = "eth0.5" := by simpa using listedY
      · exact absurd cut (by decide +kernel)
      · exact absurd cut (by decide +kernel)
    · obtain rfl | rfl : y = "veth0a" ∨ y = "eth0.5" := by simpa using listedY
      · cases pair.symm.trans sits
      · cases vlan.symm.trans sits
        exact absurd refused.2 (by decide +kernel)

/-- A VLAN on the peer gets its number only after the pair, or in a second run. -/
theorem vlan_before_peer :
    WellFormed (pairAndVlan "veth0b.5") ∧
    (ifchangeCand bareHost (pairAndVlan "veth0b.5") [⟨.created, "veth0a"⟩, ⟨.created, "veth0b.5"⟩]).get
      "veth0b.5" .vlanId = some "5" ∧
    (ifchangeCand bareHost (pairAndVlan "veth0b.5") [⟨.created, "veth0b.5"⟩, ⟨.created, "veth0a"⟩]).get
      "veth0b.5" .vlanId = none ∧
    ¬Stable bareHost (pairAndVlan "veth0b.5") [⟨.created, "veth0a"⟩, ⟨.created, "veth0b.5"⟩] := by
  have dot : rindexDot "veth0b.5" = some ("veth0b", "5") := by decide +kernel
  have early : (ifchangeCand bareHost (pairAndVlan "veth0b.5") [⟨.created, "veth0a"⟩, ⟨.created, "veth0b.5"⟩]).get
      "veth0b.5" .vlanId = some "5" := by decide +kernel
  have late : (ifchangeCand bareHost (pairAndVlan "veth0b.5") [⟨.created, "veth0b.5"⟩, ⟨.created, "veth0a"⟩]).get
      "veth0b.5" .vlanId = none := by decide +kernel
  refine ⟨pairAndVlan_wellFormed (by decide +kernel) dot (by decide +kernel), early, late, fun stable => ?_⟩
  rw [stable.order _ _ (.refl _) (.swap _ _ _), late] at early
  cases early

end Orders

end Inference
