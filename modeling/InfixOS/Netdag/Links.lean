import InfixOS.Netdag.Generate
import Mathlib.Data.Option.Basic
import Mathlib.Logic.Basic

/-! What becomes of the links of a system when exit scripts run. Links depend on one
another in the kernel: the ends of a veth pair disappear together, and a VLAN
disappears with the link it stands on. -/
namespace Netdag

/-- The links there are, by name. -/
abbrev Links := String → Option LinkKind

def Kernel.kinds (k : Kernel) : Links := fun name => (k.find name).map Link.kind

/-- What disappears with the link `x`. -/
inductive Vanishes (links : Links) (x : String) : String → Prop
  | self : Vanishes links x x
  | peer (veth : links x = some (.veth p)) : Vanishes links x p
  | vlan (below : Vanishes links x y) (above : links z = some (.vlan y)) : Vanishes links x z

open Classical in
noncomputable def Links.del (links : Links) (x : String) : Links :=
  fun z => if Vanishes links x z then none else links z

/-- One line of an exit script of `ip -batch`, which stops at a missing device. -/
noncomputable def Links.exec (links : Links) : Piece → Option Links
  | .linkDel x => if links x = none then none else some (links.del x)
  | .exitDown x | .exitFlush x => if links x = none then none else some links
  | _ => some links

noncomputable def Links.run (links : Links) : List Piece → Option Links
  | [] => some links
  | piece :: rest => (links.exec piece).bind fun after => after.run rest

theorem Links.run_append (links : Links) (first second : List Piece) :
    links.run (first ++ second) = (links.run first).bind fun after => after.run second := by
  induction first generalizing links with
  | nil => rfl
  | cons piece rest ih =>
    rw [List.cons_append, Links.run, Links.run]
    cases links.exec piece with
    | none => rfl
    | some after => exact ih after

theorem Links.del_eq_none (vanishes : Vanishes links x z) : Links.del links x z = none := by
  simp [Links.del, vanishes]

theorem Links.del_of_not (stays : ¬Vanishes links x z) : Links.del links x z = links z := by
  simp [Links.del, stays]

theorem Links.del_some (present : Links.del links x z = some kind) : links z = some kind ∧ ¬Vanishes links x z := by
  by_cases vanishes : Vanishes links x z
  · simp [Links.del_eq_none vanishes] at present
  · exact ⟨Links.del_of_not vanishes ▸ present, vanishes⟩

theorem Vanishes.mono (vanishes : Vanishes links x z)
    (sub : ∀ w kind, links w = some kind → initial w = some kind) : Vanishes initial x z := by
  induction vanishes with
  | self => exact .self
  | peer veth => exact .peer (sub _ _ veth)
  | vlan _ above ih => exact .vlan ih (sub _ _ above)

/-- The links after those in `gone` have been deleted one after the other, each
having been there. -/
structure Remaining (initial : Links) (gone : List String) (links : Links) : Prop where
  sub : links w = some kind → initial w = some kind
  kept : (∀ y ∈ gone, ¬Vanishes initial y w) → links w = initial w
  lost : y ∈ gone → Vanishes initial y w → links w = none
  closed : links z = some (.vlan y) → initial y ≠ none → links y ≠ none

namespace Remaining
variable {initial links : Links} {gone : List String}

theorem start (initial : Links) : Remaining initial [] initial where
  sub := id
  kept := fun _ => rfl
  lost := by simp
  closed := fun _ present => present

/-- What would have disappeared from the beginning does so now, or is gone. -/
theorem reaches (remaining : Remaining initial gone links) (present : links x ≠ none)
    (vanishes : Vanishes initial x z) : Vanishes links x z ∨ initial z ≠ none ∧ links z = none := by
  induction vanishes with
  | self => exact .inl .self
  | peer veth =>
    obtain ⟨kind, here⟩ := Option.ne_none_iff_exists'.mp present
    exact .inl (.peer (here.trans ((remaining.sub here).symm.trans veth)))
  | vlan below above ih =>
    rename_i y z
    by_cases here : links z = none
    · exact .inr ⟨by simp [above], here⟩
    · obtain ⟨kind, found⟩ := Option.ne_none_iff_exists'.mp here
      have vlan : links z = some (.vlan y) := by rw [found, ← remaining.sub found, above]
      rcases ih with now | ⟨was, missing⟩
      · exact .inl (.vlan now vlan)
      · exact absurd missing (remaining.closed vlan was)

theorem del (remaining : Remaining initial gone links) (present : links x ≠ none) :
    Remaining initial (gone ++ [x]) (links.del x) where
  sub := fun here => remaining.sub (Links.del_some here).1
  kept := by
    intro w stays
    simp only [List.mem_append, List.mem_singleton] at stays
    rw [Links.del_of_not fun vanishes => stays x (.inr rfl) (vanishes.mono fun _ _ => remaining.sub)]
    exact remaining.kept fun y member => stays y (.inl member)
  lost := by
    intro y w member vanishes
    rcases List.mem_append.mp member with before | now
    · have missing := remaining.lost before vanishes
      by_cases again : Vanishes links x w
      · exact Links.del_eq_none again
      · rw [Links.del_of_not again, missing]
    · obtain rfl := List.mem_singleton.mp now
      rcases remaining.reaches present vanishes with again | ⟨_, missing⟩
      · exact Links.del_eq_none again
      · by_cases again : Vanishes links y w
        · exact Links.del_eq_none again
        · rw [Links.del_of_not again, missing]
  closed := by
    intro z y above was
    obtain ⟨above, stays⟩ := Links.del_some above
    rw [Links.del_of_not fun vanishes => stays (.vlan vanishes above)]
    exact remaining.closed above was

/-- A link is there if it was and nothing deleted so far took it along. -/
theorem present_iff (remaining : Remaining initial gone links) :
    links x ≠ none ↔ initial x ≠ none ∧ ∀ y ∈ gone, ¬Vanishes initial y x := by
  constructor
  · intro here
    obtain ⟨kind, found⟩ := Option.ne_none_iff_exists'.mp here
    refine ⟨by simp [remaining.sub found], fun y member vanishes => here (remaining.lost member vanishes)⟩
  · rintro ⟨was, stays⟩
    rw [remaining.kept stays]
    exact was

end Remaining

/-- What an exit script does to its own interface. -/
inductive Takedown where
  | nothing
  | down
  | del
  deriving DecidableEq

def Takedown.pieces (name : String) : Takedown → List Piece
  | .nothing => []
  | .down => [.exitDown name, .exitFlush name]
  | .del => [.linkDel name]

/-- The links after the script of one interface. -/
noncomputable def Takedown.after (links : Links) (name : String) : Takedown → Links
  | .del => links.del name
  | _ => links

def Takedown.gone (name : String) : Takedown → List String
  | .del => [name]
  | _ => []

theorem Takedown.run_pieces (takedown : Takedown) (links : Links) (name : String) :
    links.run (takedown.pieces name) =
      if takedown ≠ .nothing ∧ links name = none then none else some (takedown.after links name) := by
  cases takedown with
  | nothing => simp [Takedown.pieces, Links.run, Takedown.after]
  | down =>
    by_cases missing : links name = none
    · simp [Takedown.pieces, Links.run, Links.exec, missing]
    · simp [Takedown.pieces, Links.run, Links.exec, missing, Takedown.after]
  | del =>
    by_cases missing : links name = none
    · simp [Takedown.pieces, Links.run, Links.exec, missing]
    · simp [Takedown.pieces, Links.run, Links.exec, missing, Takedown.after]

theorem Remaining.takedown {initial links : Links} (remaining : Remaining initial gone links) (takedown : Takedown)
    (found : takedown ≠ .nothing → links x ≠ none) :
    Remaining initial (gone ++ takedown.gone x) (takedown.after links x) := by
  cases takedown with
  | nothing => simpa [Takedown.gone, Takedown.after] using remaining
  | down => simpa [Takedown.gone, Takedown.after] using remaining
  | del => exact remaining.del (found (by simp))

theorem forall_split_cons {P : List α → α → Prop} {x : α} {xs : List α} :
    (∀ before y after, x :: xs = before ++ y :: after → P before y) ↔
      P [] x ∧ ∀ before y after, xs = before ++ y :: after → P (x :: before) y := by
  constructor
  · intro all
    refine ⟨all [] x xs rfl, ?_⟩
    rintro before y after rfl
    exact all (x :: before) y after rfl
  · rintro ⟨first, rest⟩ before y after same
    cases before with
    | nil =>
      obtain ⟨rfl, rfl⟩ := List.cons.inj same
      exact first
    | cons z before =>
      obtain ⟨rfl, later⟩ := List.cons.inj same
      exact rest before y after later

section Order
variable {initial links : Links} {gone order : List String} {takedown : String → Takedown}

/-- The lines of the scripts of a list of interfaces, in their order. -/
def takedownLines (takedown : String → Takedown) (order : List String) : List Piece :=
  order.flatMap fun x => (takedown x).pieces x

theorem run_takedown_cons : links.run (takedownLines takedown (x :: order)) =
    if takedown x ≠ .nothing ∧ links x = none then none
    else ((takedown x).after links x).run (takedownLines takedown order) := by
  rw [takedownLines, List.flatMap_cons, Links.run_append, Takedown.run_pieces]
  split
  · rfl
  · rfl

/-- The scripts of a list of interfaces find what they need exactly if every link
was there and none of those deleted earlier took it along. -/
theorem Remaining.run_iff (remaining : Remaining initial gone links) :
    (∃ after, links.run (takedownLines takedown order) = some after) ↔
      ∀ before x rest, order = before ++ x :: rest → takedown x ≠ .nothing → initial x ≠ none ∧
        ∀ y, y ∈ gone ∨ y ∈ before ∧ takedown y = .del → ¬Vanishes initial y x := by
  induction order generalizing gone links with
  | nil => simp [takedownLines, Links.run]
  | cons x rest ih =>
    rw [run_takedown_cons, forall_split_cons (P := fun before x => takedown x ≠ .nothing → initial x ≠ none ∧
      ∀ y, y ∈ gone ∨ y ∈ before ∧ takedown y = .del → ¬Vanishes initial y x)]
    have first : (takedown x ≠ .nothing → initial x ≠ none ∧
        ∀ y, y ∈ gone ∨ y ∈ [] ∧ takedown y = .del → ¬Vanishes initial y x) ↔
        (takedown x ≠ .nothing → links x ≠ none) := by
      rw [remaining.present_iff]
      simp
    have members (y : String) (before : List String) : y ∈ gone ++ (takedown x).gone x ∨ y ∈ before ∧
        takedown y = .del ↔ y ∈ gone ∨ y ∈ x :: before ∧ takedown y = .del := by
      have own : y ∈ (takedown x).gone x ↔ y = x ∧ takedown y = .del := by
        cases kind : takedown x with
        | nothing => simp +contextual [Takedown.gone, kind]
        | down => simp +contextual [Takedown.gone, kind]
        | del => simp +contextual [Takedown.gone, kind]
      rw [List.mem_append, own, List.mem_cons]
      tauto
    rw [first]
    by_cases found : takedown x ≠ .nothing → links x ≠ none
    · have later := ih (remaining.takedown (takedown x) found)
      simp only [members] at later
      rw [if_neg (by tauto), later]
      exact ⟨fun rest => ⟨found, rest⟩, And.right⟩
    · rw [if_pos (by tauto)]
      simp [found]

theorem Remaining.run_gone (remaining : Remaining initial gone links)
    (ran : links.run (takedownLines takedown order) = some after) :
    Remaining initial (gone ++ order.flatMap fun x => (takedown x).gone x) after := by
  induction order generalizing gone links with
  | nil =>
    obtain rfl : links = after := by simpa [takedownLines, Links.run] using ran
    simpa using remaining
  | cons x rest ih =>
    rw [run_takedown_cons] at ran
    split at ran
    · simp at ran
    · rename_i found
      have later := ih (remaining.takedown (takedown x) (by tauto)) ran
      simpa using later

end Order

end Netdag
