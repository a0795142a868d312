import Mathlib
import InfixOS.Dagger.Library
import InfixOS.Posix.CommandLine

/-! File names and their order. A script is found by its name alone, so the
zero-padded priority is what makes the byte order of sort(1) the numeric one. -/
namespace Dagger
open Posix Posix.FileTree

/-- The order scripts of one node are meant to run in. -/
abbrev Precedes (a b : Nat × String) : Prop := toLex a < toLex b

theorem digit_lt : ∀ m < 10, ∀ n < 10, (digit m < digit n ↔ m < n) := by decide

theorem digit_injective : ∀ m < 10, ∀ n < 10, digit m = digit n → m = n := by decide

theorem digit_mod (n : Nat) : digit (n % 10) = digit n := by simp [digit]

theorem scriptName_toList (prio : Nat) (script : String) :
    (scriptName prio script).toList = digit (prio / 10) :: digit prio :: '-' :: script.toList := by
  simp [scriptName]

theorem scriptName_lt (small : a.1 ≤ 99) (small' : b.1 ≤ 99) (precedes : Precedes a b) :
    scriptName a.1 a.2 < scriptName b.1 b.2 := by
  rw [String.lt_iff_toList_lt, scriptName_toList, scriptName_toList]
  have tens := digit_lt (a.1 / 10) (by omega) (b.1 / 10) (by omega)
  have units := digit_lt (a.1 % 10) (by omega) (b.1 % 10) (by omega)
  rw [digit_mod, digit_mod] at units
  rcases Prod.Lex.toLex_lt_toLex.mp precedes with less | ⟨same, less⟩
  · by_cases high : a.1 / 10 < b.1 / 10
    · exact List.cons_lt_cons_iff.mpr (.inl (tens.mpr high))
    · have equal : a.1 / 10 = b.1 / 10 := by omega
      refine List.cons_lt_cons_iff.mpr (.inr ⟨by rw [equal], ?_⟩)
      exact List.cons_lt_cons_iff.mpr (.inl (units.mpr (by omega)))
  · rw [same]
    refine List.cons_lt_cons_iff.mpr (.inr ⟨rfl, List.cons_lt_cons_iff.mpr (.inr ⟨rfl, ?_⟩)⟩)
    exact List.cons_lt_cons_iff.mpr (.inr ⟨rfl, String.lt_iff_toList_lt.mp less⟩)

theorem scriptName_injective (small : p ≤ 99) (small' : q ≤ 99)
    (same : scriptName p s = scriptName q t) : p = q ∧ s = t := by
  have lists := congrArg String.toList same
  rw [scriptName_toList, scriptName_toList] at lists
  obtain ⟨tens, lists⟩ := List.cons.inj lists
  obtain ⟨units, lists⟩ := List.cons.inj lists
  obtain ⟨_, names⟩ := List.cons.inj lists
  have high := digit_injective (p / 10) (by omega) (q / 10) (by omega) tens
  have low := digit_injective (p % 10) (by omega) (q % 10) (by omega)
    (by rw [digit_mod, digit_mod, units])
  exact ⟨by omega, String.toList_inj.mp names⟩

theorem scriptName_literal (prio : Nat) (literal : Literal script) :
    Literal (scriptName prio script) ∧ scriptName prio script ≠ "" := by
  have digits : ∀ n < 10, isBlank (digit n) = false ∧ isPattern (digit n) = false := by decide
  have each (n : Nat) := digits (n % 10) (Nat.mod_lt _ (by decide))
  simp only [digit_mod] at each
  refine ⟨?_, ?_⟩
  · intro c member
    rw [scriptName_toList] at member
    simp only [List.mem_cons] at member
    rcases member with rfl | rfl | rfl | member
    · exact each _
    · exact each _
    · decide
    · exact literal c member
  · intro empty
    have none := congrArg String.toList empty
    rw [scriptName_toList] at none
    simp at none

theorem scriptPath_injective (small : p ≤ 99) (small' : q ≤ 99)
    (same : scriptPath gen action node p s = scriptPath gen' action' node' q t) :
    genName gen = genName gen' ∧ action = action' ∧ node = node' ∧ p = q ∧ s = t := by
  simp only [scriptPath, List.cons.injEq, and_true, true_and] at same
  obtain ⟨gens, actions, nodes, names⟩ := same
  exact ⟨gens, actions, nodes, scriptName_injective small small' names⟩

@[simp] theorem genName_inj : genName m = genName n ↔ m = n :=
  ⟨fun same => Int.repr_injective same, fun same => congrArg genName same⟩

theorem genName_ne_empty (n : Int) : genName n ≠ "" := by
  cases n with
  | ofNat m => exact Nat.repr_ne_empty
  | negSucc m => simp [genName, Int.repr]

/-- A generation is named by digits and a sign, so no other entry of the base
directory can be taken for one. -/
theorem genName_chars (n : Int) : ∀ c ∈ (genName n).toList, c.isDigit = true ∨ c = '-' := by
  intro c member
  rw [genName, Int.toString_eq_repr, Int.repr_eq_if] at member
  split at member
  · rw [Nat.toList_repr] at member
    exact .inl (Nat.isDigit_of_mem_toDigits (by decide) (by decide) member)
  · rw [String.toList_append, List.mem_append, Nat.toList_repr] at member
    rcases member with sign | digits
    · exact .inr (by simpa using sign)
    · exact .inl (Nat.isDigit_of_mem_toDigits (by decide) (by decide) digits)

theorem genName_ne (n : Int) (s : String)
    (foreign : s.toList.any (fun c => !c.isDigit && c != '-') = true) : genName n ≠ s := by
  rintro rfl
  obtain ⟨c, member, other⟩ := List.any_eq_true.mp foreign
  simp only [Bool.and_eq_true, Bool.not_eq_true', bne_iff_ne, ne_eq] at other
  rcases genName_chars n c member with digit | sign
  · simp [digit] at other
  · exact other.2 sign

@[simp] theorem genName_ne_current (n : Int) : genName n ≠ "current" := genName_ne n _ (by decide)

@[simp] theorem genName_ne_next (n : Int) : genName n ≠ "next" := genName_ne n _ (by decide)

theorem genName_ordinary (n : Int) : (genName n).toList.all isOrdinary = true := by
  refine List.all_eq_true.mpr fun c member => ?_
  have outside (d : Char) (other : d.isDigit = false ∧ d ≠ '-') : c ≠ d := by
    rintro rfl
    rcases genName_chars n c member with digit | sign
    · simp [digit] at other
    · exact other.2 sign
  have listed : "|&;<>()\n".toList = ['|', '&', ';', '<', '>', '(', ')', '\n'] := by decide
  refine ordinary_iff.mpr ⟨stands_iff.mpr ⟨?_, ?_, ?_⟩, ?_⟩
  · simp [isSeparator, outside ' ' (by decide), outside '\t' (by decide)]
  · simp [isOperatorChar, listed, outside '|' (by decide), outside '&' (by decide), outside ';' (by decide),
      outside '<' (by decide), outside '>' (by decide), outside '(' (by decide), outside ')' (by decide),
      outside '\n' (by decide)]
  · exact ⟨outside _ (by decide), outside _ (by decide), outside _ (by decide), outside _ (by decide)⟩
  · refine ⟨outside _ (by decide), ?_, outside _ (by decide)⟩
    simp [isPattern, outside '*' (by decide), outside '?' (by decide), outside '[' (by decide), outside '\\' (by decide)]

theorem genName_literal (n : Int) : Literal (genName n) := literal_of_ordinary (genName_ordinary n)

private theorem append_lt (l : List Char) {a b : List Char} (less : a < b) : l ++ a < l ++ b := by
  induction l with
  | nil => exact less
  | cons c l ih => exact List.cons_lt_cons_iff.mpr (.inr ⟨rfl, ih⟩)

theorem path_snoc (env : Env) (p : Path) (c : String) :
    env.path (p ++ [c]) = env.path p ++ "/" ++ c := by simp [Env.path]

/-- Files of one directory sort by name. -/
theorem path_lt (env : Env) (p : Path) (less : a < b) : env.path (p ++ [a]) < env.path (p ++ [b]) := by
  rw [path_snoc, path_snoc, String.lt_iff_toList_lt]
  simp only [String.toList_append]
  exact append_lt _ (String.lt_iff_toList_lt.mp less)

theorem scriptPath_lt (env : Env) (gen : Int) (action node : String) (small : a.1 ≤ 99)
    (small' : b.1 ≤ 99) (precedes : Precedes a b) :
    env.path (scriptPath gen action node a.1 a.2) < env.path (scriptPath gen action node b.1 b.2) :=
  path_lt env [genName gen, "action", action, node] (scriptName_lt small small' precedes)

theorem path_literal (env : Env) (base : Literal env.basedir) (words : ∀ c ∈ p, Literal c) :
    Literal (env.path p) := by
  induction p using List.reverseRecOn with
  | nil => exact base
  | append_singleton p c ih =>
    rw [path_snoc]
    refine literal_append (literal_append (ih fun d member => words d (by simp [member])) (by decide)) ?_
    exact words c (by simp)

end Dagger
