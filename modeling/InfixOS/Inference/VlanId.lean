import InfixOS.Inference.Candidate

/-! Which VLAN ids the inference takes from the names of interfaces. -/
namespace Inference
open Core Posix

theorem rindexDot_eq (split : rindexDot name = some (parent, digits)) : name = parent ++ "." ++ digits := by
  have whole := List.takeWhile_append_dropWhile (p := fun c : Char => decide (c ≠ '.')) (l := name.toList.reverse)
  simp only [rindexDot] at split
  cases rest : name.toList.reverse.dropWhile (fun c => decide (c ≠ '.')) with
  | nil => rw [rest] at split; cases split
  | cons dot before =>
    rw [rest] at split whole
    have isDot : dot = '.' := by
      have head := List.head_dropWhile_not (p := fun c : Char => decide (c ≠ '.')) (l := name.toList.reverse)
        (by rw [rest]; exact List.cons_ne_nil _ _)
      simp only [rest, List.head_cons] at head
      simpa using head
    cases split
    apply String.toList_injective
    have back := congrArg List.reverse whole
    rw [List.reverse_append, List.reverse_cons, List.reverse_reverse, isDot] at back
    refine back.symm.trans ?_
    rw [String.toList_append, String.toList_append]
    simp only [String.toList_ofList]
    rfl

theorem rindexDot_digits (parent : String) (isNumber : oneOrMore Char.isDigit digits.toList = true) :
    rindexDot (parent ++ "." ++ digits) = some (parent, digits) := by
  have plain : ∀ c ∈ digits.toList.reverse, decide (c ≠ '.') = true := by
    intro c member
    have digit := List.all_eq_true.mp (Bool.and_eq_true_iff.mp isNumber).2 c (List.mem_reverse.mp member)
    refine decide_eq_true ?_
    rintro rfl
    exact absurd digit (by decide)
  have back : (parent ++ "." ++ digits).toList.reverse = digits.toList.reverse ++ '.' :: parent.toList.reverse := by
    rw [String.toList_append, String.toList_append, List.reverse_append, List.reverse_append]
    rfl
  simp only [rindexDot, back]
  rw [List.dropWhile_append_of_pos plain, List.takeWhile_append_of_pos plain]
  simp

section Filling
variable {c : Candidate} {name : String}

theorem get_fill (c : Candidate) (name : String) (leaf : Leaf) (value other : String) (l : Leaf) :
    (c.fill name leaf value).get other l =
      if other = name ∧ l = leaf then some ((c.get name leaf).getD value) else c.get other l := by
  rw [Candidate.fill]
  cases found : c.get name leaf with
  | none => simp [Candidate.get_set]
  | some old =>
    simp only [Option.isNone_some, Bool.false_eq_true, if_false, Option.getD_some]
    split
    · rename_i same
      obtain ⟨rfl, rfl⟩ := same
      exact found
    · rfl

theorem fill_eq_iff (c : Candidate) (name : String) (leaf : Leaf) (value : String) :
    c.fill name leaf value = c ↔ c.get name leaf ≠ none := by
  constructor
  · intro same absent
    have value := get_fill c name leaf value name leaf
    rw [same, absent] at value
    simp at value
  · intro present
    rw [Candidate.fill, if_neg (by simpa using present)]

/-- All that filling in a VLAN comes to. -/
theorem fillVlan_spec (c : Candidate) (name parent digits : String) :
    ((fillVlan c name parent digits).err = .ok ↔ c.get name .vlanId ≠ none ∨ vlanid digits ≠ none) ∧
    (fillVlan c name parent digits).candidate.get name .parentInterface =
      some ((c.get name .parentInterface).getD parent) ∧
    (fillVlan c name parent digits).candidate.get name .tagType = some ((c.get name .tagType).getD cVlan) ∧
    (fillVlan c name parent digits).candidate.get name .vlanId =
      ((c.get name .vlanId).or ((vlanid digits).map toString)) := by
  have vid : ((c.fill name .parentInterface parent).fill name .tagType cVlan).get name .vlanId = c.get name .vlanId := by
    rw [get_fill, if_neg (by simp), get_fill, if_neg (by simp)]
  have tag : ((c.fill name .parentInterface parent).fill name .tagType cVlan).get name .tagType =
      some ((c.get name .tagType).getD cVlan) := by
    rw [get_fill, if_pos ⟨rfl, rfl⟩, get_fill, if_neg (by simp)]
  have parent : ((c.fill name .parentInterface parent).fill name .tagType cVlan).get name .parentInterface =
      some ((c.get name .parentInterface).getD parent) := by
    rw [get_fill, if_neg (by simp), get_fill, if_pos ⟨rfl, rfl⟩]
  rw [fillVlan, vid]
  cases present : c.get name .vlanId with
  | some old => simp [vid, present, tag, parent]
  | none =>
    cases read : vlanid digits with
    | none => simp [vid, present, tag, parent, failed]
    | some n => simp [Candidate.get_set, tag, parent]

end Filling

/-- What the inference of a VLAN is to mean: what it adds fits the name and the type of
vlan-id, and an error leaves the candidate as it was. -/
structure Meant (c : Candidate) (name : String) (result : Result) : Prop where
  fits : result.candidate ≠ c → ∃ parent digits, name = parent ++ "." ++ digits ∧
    oneOrMore Char.isDigit digits.toList = true ∧ c parent ≠ none ∧ 1 ≤ strtol digits ∧ strtol digits ≤ 4094 ∧
    (∀ p, c.get name .parentInterface = none → result.candidate.get name .parentInterface = some p → p = parent) ∧
    ∀ v, c.get name .vlanId = none → result.candidate.get name .vlanId = some v → v = toString (strtol digits)
  error : result.err ≠ .ok → result.candidate = c

/-- The name of a VLAN on an interface that is found. -/
structure Named (host : Host) (c : Candidate) (name parent digits : String) : Prop where
  uncut : isCut name.toList = false
  vlan : c.get name .type = some l2vlanType
  split : rindexDot name = some (parent, digits)
  isNumber : oneOrMore Char.isDigit digits.toList = true
  low : 1 ≤ strtol digits
  high : strtol digits ≤ 4095
  found : ∃ n, nitems host c parent = some (n + 1)

def Untagged (c : Candidate) (name : String) : Prop :=
  c.get name .parentInterface = none ∨ c.get name .tagType = none

theorem inferVlan_named (named : Named host c name parent digits) :
    inferVlan host c name = fillVlan c name parent digits := by
  obtain ⟨n, found⟩ := named.found
  have range : ¬(strtol digits < 1 ∨ strtol digits > 4095) := by
    have := named.low
    have := named.high
    omega
  simp [inferVlan, c.read_of_uncut named.uncut, named.vlan, named.split, named.isNumber, found]
  exact fun out => absurd out (by simpa using range)

/-- Without such a name nothing is added. -/
theorem inferVlan_unnamed (none : ∀ parent digits, ¬Named host c name parent digits) :
    (inferVlan host c name).candidate = c := by
  rw [inferVlan]
  split
  · rfl
  · rename_i vlan
    split
    · rfl
    · rename_i parent digits split'
      split
      · rfl
      · rename_i digit
        split
        · rfl
        · rename_i range
          split
          · rfl
          · rfl
          · rename_i n found
            obtain ⟨uncut, typed⟩ := Candidate.get_of_read (not_not.mp vlan)
            exact absurd ⟨uncut, typed, split', by simpa using digit, by omega, by omega, n, found⟩ (none parent digits)

theorem vlanid_range (accepted : vlanid text = some vid) : 1 ≤ vid ∧ vid ≤ 4094 := by
  obtain ⟨_, range⟩ := Option.filter_eq_some_iff.mp accepted
  simpa using range

/-- Something is added if a leaf is absent that can be set. -/
theorem fillVlan_same_iff (c : Candidate) (name parent digits : String) :
    (fillVlan c name parent digits).candidate = c ↔
      ¬Untagged c name ∧ (c.get name .vlanId = none → vlanid digits = none) := by
  obtain ⟨-, parentSet, tagSet, vidSet⟩ := fillVlan_spec c name parent digits
  constructor
  · intro same
    rw [same] at parentSet tagSet vidSet
    refine ⟨?_, fun absent => ?_⟩
    · rintro (absent | absent)
      · rw [absent] at parentSet; cases parentSet
      · rw [absent] at tagSet; cases tagSet
    · rw [absent] at vidSet
      simpa using vidSet.symm
  · rintro ⟨tagged, refused⟩
    obtain ⟨parentThere, tagThere⟩ := not_or.mp tagged
    have first : c.fill name .parentInterface parent = c := (fill_eq_iff _ _ _ _).mpr parentThere
    have second : c.fill name .tagType cVlan = c := (fill_eq_iff _ _ _ _).mpr tagThere
    rw [fillVlan, first, second]
    cases present : c.get name .vlanId with
    | some old => rfl
    | none => rw [refused present]; rfl

section Meaning
variable {host : Host} {c : Candidate} {name parent digits : String}

/-- What is meant, for the parent and the number that the name has. -/
theorem Meant.own (meant : Meant c name (fillVlan c name parent digits)) (named : Named host c name parent digits)
    (added : (fillVlan c name parent digits).candidate ≠ c) : c parent ≠ none ∧ strtol digits ≤ 4094 ∧
      ∀ vid, c.get name .vlanId = none → vlanid digits = some vid → vid = strtol digits := by
  obtain ⟨parent', digits', split, isNumber, there, -, high, -, text⟩ := meant.fits added
  have same := rindexDot_digits parent' isNumber
  rw [← split, named.split] at same
  cases same
  refine ⟨there, high, fun vid absent accepted => ?_⟩
  obtain ⟨-, -, -, vidSet⟩ := fillVlan_spec c name parent digits
  have same := text (toString vid) absent (by rw [vidSet, absent, accepted]; rfl)
  have chars : Nat.toDigits 10 vid = Nat.toDigits 10 (strtol digits) :=
    Nat.toList_repr.symm.trans ((congrArg String.toList same).trans Nat.toList_repr)
  rw [← Nat.ofDigitChars_ten_toDigits (n := vid), chars, Nat.ofDigitChars_ten_toDigits]

theorem fillVlan_error_iff (c : Candidate) (name parent digits : String) :
    (fillVlan c name parent digits).err ≠ .ok ↔ c.get name .vlanId = none ∧ vlanid digits = none := by
  rw [ne_eq, (fillVlan_spec c name parent digits).1, not_or, not_not, not_not]

theorem Meant.untagged (meant : Meant c name (fillVlan c name parent digits)) (named : Named host c name parent digits)
    (untagged : Untagged c name) : c parent ≠ none ∧ strtol digits ≤ 4094 ∧
      (c.get name .vlanId = none → vlanid digits = some (strtol digits)) := by
  have added : (fillVlan c name parent digits).candidate ≠ c := fun same =>
    ((fillVlan_same_iff c name parent digits).mp same).1 untagged
  obtain ⟨there, high, number⟩ := meant.own named added
  refine ⟨there, high, fun absent => ?_⟩
  cases accepted : vlanid digits with
  | none =>
    -- the parent or the tag's type is already set when the number is refused
    exact absurd (meant.error ((fillVlan_error_iff c name parent digits).mpr ⟨absent, accepted⟩)) added
  | some vid => rw [number vid absent accepted]

theorem Meant.tagged (meant : Meant c name (fillVlan c name parent digits)) (named : Named host c name parent digits)
    (absent : c.get name .vlanId = none) (accepted : vlanid digits = some vid) : c parent ≠ none ∧ vid = strtol digits := by
  have added : (fillVlan c name parent digits).candidate ≠ c := fun same => by
    rw [((fillVlan_same_iff c name parent digits).mp same).2 absent] at accepted
    cases accepted
  obtain ⟨there, -, number⟩ := meant.own named added
  exact ⟨there, number vid absent accepted⟩

/-- Whatever is added, the parent is there and the number is that of the name. -/
theorem added_fits
    (untagged : Untagged c name → c parent ≠ none ∧ strtol digits ≤ 4094 ∧
      (c.get name .vlanId = none → vlanid digits = some (strtol digits)))
    (tagged : ¬Untagged c name → c.get name .vlanId = none → ∀ vid, vlanid digits = some vid →
      c parent ≠ none ∧ vid = strtol digits)
    (added : (fillVlan c name parent digits).candidate ≠ c) : c parent ≠ none ∧ strtol digits ≤ 4094 ∧
      (c.get name .vlanId = none → ∀ vid, vlanid digits = some vid → vid = strtol digits) := by
  by_cases missing : Untagged c name
  · obtain ⟨there, high, number⟩ := untagged missing
    refine ⟨there, high, fun absent vid accepted => ?_⟩
    rw [number absent] at accepted
    exact (Option.some.inj accepted).symm
  · have kept := fillVlan_same_iff c name parent digits
    have absent : c.get name .vlanId = none := by
      by_contra present
      exact added (kept.mpr ⟨missing, fun absent => absurd absent present⟩)
    cases accepted : vlanid digits with
    | none => exact absurd (kept.mpr ⟨missing, fun _ => accepted⟩) added
    | some vid =>
      obtain ⟨there, number⟩ := tagged missing absent vid accepted
      have := vlanid_range accepted
      refine ⟨there, by omega, fun _ other same => ?_⟩
      cases same
      exact number

theorem fillVlan_meant (named : Named host c name parent digits)
    (untagged : Untagged c name → c parent ≠ none ∧ strtol digits ≤ 4094 ∧
      (c.get name .vlanId = none → vlanid digits = some (strtol digits)))
    (tagged : ¬Untagged c name → c.get name .vlanId = none → ∀ vid, vlanid digits = some vid →
      c parent ≠ none ∧ vid = strtol digits) : Meant c name (fillVlan c name parent digits) := by
  obtain ⟨-, parentSet, -, vidSet⟩ := fillVlan_spec c name parent digits
  refine ⟨fun added => ?_, fun refused => ?_⟩
  · obtain ⟨there, high, number⟩ := added_fits untagged tagged added
    refine ⟨parent, digits, rindexDot_eq named.split, named.isNumber, there, named.low, high,
      fun p absent set => ?_, fun v absent set => ?_⟩
    · rw [parentSet, absent] at set
      exact (Option.some.inj set).symm
    · rw [vidSet, absent, Option.none_or] at set
      obtain ⟨vid, accepted, rfl⟩ := Option.map_eq_some_iff.mp set
      rw [number absent vid accepted]
  · obtain ⟨absent, denied⟩ := (fillVlan_error_iff c name parent digits).mp refused
    refine (fillVlan_same_iff c name parent digits).mpr ⟨fun missing => ?_, fun _ => denied⟩
    rw [(untagged missing).2.2 absent] at denied
    cases denied

end Meaning

/-- The inference of a VLAN means what it is to mean exactly under these conditions on
its name. Where the parent or the tag's type is inferred, the interface is there, the
number is a VLAN id and, if it is to be set, the data store reads it as the same number.
Where only the number is, it may also be refused. -/
theorem meant_iff (host : Host) (c : Candidate) (name : String) :
    Meant c name (inferVlan host c name) ↔
      ∀ parent digits, Named host c name parent digits →
        (Untagged c name → c parent ≠ none ∧ strtol digits ≤ 4094 ∧
          (c.get name .vlanId = none → vlanid digits = some (strtol digits))) ∧
        (¬Untagged c name → c.get name .vlanId = none → ∀ vid, vlanid digits = some vid →
          c parent ≠ none ∧ vid = strtol digits) := by
  constructor
  · intro meant parent digits named
    rw [inferVlan_named named] at meant
    exact ⟨meant.untagged named, fun _ absent vid accepted => meant.tagged named absent accepted⟩
  · intro cond
    by_cases named : ∃ parent digits, Named host c name parent digits
    · obtain ⟨parent, digits, named⟩ := named
      rw [inferVlan_named named]
      exact fillVlan_meant named (cond parent digits named).1 (cond parent digits named).2
    · have same := inferVlan_unnamed fun parent digits named' => named ⟨parent, digits, named'⟩
      exact ⟨fun added => absurd same added, fun _ => same⟩

def onEth0 (name : String) : Candidate := fun other =>
  if other = "eth0" then some fun _ => none
  else if other = name then some fun leaf => if leaf = .type then some l2vlanType else none
  else none

def bareHost : Host := ⟨fun _ => false, fun _ _ => none⟩

/-- The range check takes 4095, which the data store refuses when the other two leaves
are set; and a leading zero makes VLAN 10 of the name VLAN 8. -/
theorem vlan_ids_misread :
    (let result := inferVlan bareHost (onEth0 "eth0.4095") "eth0.4095"
     result.err = failed ∧ result.candidate.get "eth0.4095" .parentInterface = some "eth0" ∧
      result.candidate.get "eth0.4095" .tagType = some cVlan ∧ result.candidate.get "eth0.4095" .vlanId = none) ∧
    (let result := inferVlan bareHost (onEth0 "eth0.010") "eth0.010"
     result.err = .ok ∧ result.candidate.get "eth0.010" .vlanId = some "8") ∧
    ¬Meant (onEth0 "eth0.4095") "eth0.4095" (inferVlan bareHost (onEth0 "eth0.4095") "eth0.4095") := by
  refine ⟨by decide +kernel, by decide +kernel, fun meant => ?_⟩
  have same := meant.error (by decide +kernel)
  have set : (inferVlan bareHost (onEth0 "eth0.4095") "eth0.4095").candidate.get "eth0.4095" .parentInterface =
      some "eth0" := by decide +kernel
  rw [same] at set
  exact absurd set (by decide +kernel)

end Inference
