import InfixOS.Dagger.Claim

/-! When a failing claim is harmless, for any base directory and any struct.
The lock is taken in the middle of the call and the struct is cleared at its
start, and neither is undone. -/
namespace Dagger
open Posix Posix.FileTree

variable {σ : Type}

/-- The transaction a struct describes, none if it has no open stream. -/
def Handle.transaction (d : Handle) : Option Handle := if d.nextFp.isSome then some d else none

/-- If the claim fails, it leaves no lock that was not there, and the struct
describes the transaction it described before. -/
structure Preserves (faults : Faults) (path : String) (d : Handle) (t : Base σ) : Prop where
  lock : (daggerClaim faults path d t).ok = false →
    ((daggerClaim faults path d t).tree.get ["next"]).isSome → (t.get ["next"]).isSome
  handle : (daggerClaim faults path d t).ok = false →
    (daggerClaim faults path d t).handle.transaction = d.transaction

/-- The lock is not to be had: the base directory is no directory, or there is
a transaction, or one of the two calls fails. -/
def Refused (faults : Faults) (t : Base σ) : Prop :=
  faults .mkdirBase = true ∨ (∃ n, t.get [] = some n ∧ n ≠ .dir) ∨
  faults .openNext = true ∨ (t.get ["next"]).isSome

/-- The base directory as it is when the lock has been taken. -/
def locked (t : Base σ) : Base σ := (t.mkdirP []).1.put ["next"] (.file [] false)

/-- The commands that follow. -/
inductive Command where
  | mkdir (p : Path)
  | link (target p : Path)

def Command.run (t : Base σ) : Command → Base σ × Bool
  | .mkdir p => t.mkdirP p
  | .link target p => t.lnS target p

def layout (current : Option Int) : List (ClaimStep × Command) :=
  (match current with
    | none => []
    | some c => [(.mkdirExit, .mkdir [genName c, "action", "exit"]), (.linkExit, .link toTopDown (exitOrder c))]) ++
  let next := current.getD (-1) + 1
  [(.mkdirInit, .mkdir [genName next, "action", "init"]), (.mkdirSkip, .mkdir [genName next, "skip"]),
    (.linkInit, .link ["..", "..", "bottom-up-order"] [genName next, "action", "init", "order"])]

/-- Each command succeeds on what the ones before it leave. -/
def Succeed (faults : Faults) : List (ClaimStep × Command) → Base σ → Prop
  | [], _ => True
  | (step, command) :: rest, t =>
    faults step = false ∧ (command.run t).2 = true ∧ Succeed faults rest (command.run t).1

theorem layoutExit_succeeds (faults : Faults) (c : Int) (t : Base σ)
    (rest : List (ClaimStep × Command)) :
    Succeed faults ((.mkdirExit, .mkdir [genName c, "action", "exit"]) ::
        (.linkExit, .link toTopDown (exitOrder c)) :: rest) t ↔
      (layoutExit faults c t).2 = true ∧ Succeed faults rest (layoutExit faults c t).1 := by
  simp only [Succeed, Command.run, layoutExit]
  cases faults .mkdirExit with
  | true => simp [attempt, andThen]
  | false =>
    simp only [attempt, Bool.false_eq_true, if_false, true_and]
    generalize t.mkdirP [genName c, "action", "exit"] = r
    obtain ⟨u, ok⟩ := r
    cases ok with
    | false => simp [andThen]
    | true =>
      cases faults .linkExit with
      | true => simp [andThen]
      | false => simp [andThen, toTopDown, exitOrder]

theorem layoutInit_succeeds (faults : Faults) (next : Int) (t : Base σ) :
    Succeed faults [(.mkdirInit, .mkdir [genName next, "action", "init"]),
        (.mkdirSkip, .mkdir [genName next, "skip"]),
        (.linkInit, .link ["..", "..", "bottom-up-order"] [genName next, "action", "init", "order"])] t ↔
      (layoutInit faults next t).2 = true := by
  simp only [Succeed, Command.run, layoutInit, and_true]
  cases faults .mkdirInit with
  | true => simp [attempt, andThen]
  | false =>
    simp only [attempt, Bool.false_eq_true, if_false, true_and]
    generalize t.mkdirP [genName next, "action", "init"] = r
    obtain ⟨u, ok⟩ := r
    cases ok with
    | false => simp [andThen]
    | true =>
      cases faults .mkdirSkip with
      | true => simp [andThen]
      | false =>
        simp only [andThen, Bool.false_eq_true, if_false, true_and]
        generalize u.mkdirP [genName next, "skip"] = r
        obtain ⟨v, ok⟩ := r
        cases ok with
        | false => simp
        | true =>
          cases faults .linkInit with
          | true => simp
          | false => simp

theorem mkdirP_root (t : Base σ) : ((t.mkdirP []).2 = true ↔ ¬∃ n, t.get [] = some n ∧ n ≠ .dir) ∧
    ((t.mkdirP []).2 = true → (t.mkdirP []).1.get [] = some .dir) ∧
    ∀ q, q ≠ [] → (t.mkdirP []).1.get q = t.get q := by
  refine ⟨?_, ?_, fun q other => (t.mkdirP_writes []).frame fun n fine => ?_⟩
  · unfold mkdirP
    split
    · rename_i missing
      simp [mkdirFrom, missing]
    · rename_i found
      simp [mkdirFrom, found]
    · rename_i n other found
      simpa [found] using other
  · unfold mkdirP
    split
    · simp [mkdirFrom]
    · rename_i found
      simp [mkdirFrom, found]
    · simp
  · exact other (List.prefix_nil.mp fine.1)

/-- A refused claim only clears the struct. -/
theorem daggerClaim_refused (path : String) (d : Handle) {t : Base σ} (refused : Refused faults t) :
    (daggerClaim faults path d t).ok = false ∧ (daggerClaim faults path d t).handle = .zero ∧
    (daggerClaim faults path d t).tree.get ["next"] = t.get ["next"] := by
  obtain ⟨made, dir, frame⟩ := mkdirP_root t
  unfold daggerClaim
  cases fault : faults .mkdirBase with
  | true => simp [attempt]
  | false =>
    simp only [attempt, Bool.false_eq_true, if_false]
    generalize t.mkdirP [] = r at made dir frame ⊢
    obtain ⟨u, ok⟩ := r
    have kept := frame ["next"] (by simp)
    cases ok with
    | false => exact ⟨rfl, rfl, kept⟩
    | true =>
      cases fault' : faults .openNext with
      | true => exact ⟨rfl, rfl, kept⟩
      | false =>
        have busy : (t.get ["next"]).isSome := by
          rcases refused with bad | bad | bad | busy
          · simp [fault] at bad
          · exact absurd bad (made.mp rfl)
          · simp [fault'] at bad
          · exact busy
        obtain ⟨n, found⟩ := Option.isSome_iff_exists.mp busy
        simp only at kept
        have closed : u.openExclusive ["next"] = (u, false) := by
          simp [openExclusive, kept, found]
        simp [closed, kept]

theorem layoutExit_grows (faults : Faults) (c : Int) (t : Base σ) :
    Grows t (layoutExit faults c t).1 := by
  have writes : Writes (fun _ _ => True) t (layoutExit faults c t).1 :=
    andThen_writes (attempt_writes ((t.mkdirP_writes _).mono fun _ _ _ => trivial))
      (attempt_writes ((lnS_writes _ _ _).mono fun _ _ _ => trivial))
  exact writes.grows

theorem layoutInit_grows (faults : Faults) (next : Int) (t : Base σ) :
    Grows t (layoutInit faults next t).1 := by
  have writes : Writes (fun _ _ => True) t (layoutInit faults next t).1 :=
    andThen_writes (attempt_writes ((t.mkdirP_writes _).mono fun _ _ _ => trivial))
      (andThen_writes (attempt_writes ((mkdirP_writes _ _).mono fun _ _ _ => trivial))
        (attempt_writes ((lnS_writes _ _ _).mono fun _ _ _ => trivial)))
  exact writes.grows

/-- Once the lock is taken it stays, whatever the commands that follow do. -/
theorem daggerClaim_locked (path : String) (d : Handle) {t : Base σ} (free : ¬Refused faults t) :
    ((daggerClaim faults path d t).ok = true ↔
      Succeed faults (layout (readdf (locked t) ["current"])) (locked t)) ∧
    ((daggerClaim faults path d t).tree.get ["next"]).isSome ∧ t.get ["next"] = none := by
  obtain ⟨made, dir, frame⟩ := mkdirP_root t
  simp only [Refused, not_or, Bool.not_eq_true, Option.isSome_eq_false_iff,
    Option.isNone_iff_eq_none] at free
  obtain ⟨noFault, root, noFault', missing⟩ := free
  have held : ((locked t).get ["next"]).isSome := by simp [locked]
  have opened : (t.mkdirP []).1.openExclusive ["next"] = (locked t, true) := by
    simp [openExclusive, frame ["next"] (by simp), missing, dir (made.mpr root), locked]
  have base := made.mpr root
  unfold daggerClaim
  simp only [attempt, noFault, noFault', Bool.false_eq_true, if_false]
  generalize t.mkdirP [] = r at base opened ⊢
  obtain ⟨u, ok⟩ := r
  simp only at base opened
  subst base
  simp only [opened]
  generalize locked t = v at held ⊢
  rw [← and_assoc]
  refine ⟨?_, missing⟩
  cases current : readdf v ["current"] with
  | none =>
    simp only [Option.isSome_none, Bool.false_eq_true, if_false, layout, List.nil_append,
      layoutInit_succeeds, Option.getD_none]
    have grows := layoutInit_grows faults (-1 + 1) v
    generalize layoutInit faults (-1 + 1) v = r at grows ⊢
    obtain ⟨w, ok⟩ := r
    cases ok with
    | false => exact ⟨by simp, grows.isSome held⟩
    | true => exact ⟨by simp, grows.isSome held⟩
  | some c =>
    simp only [Option.isSome_some, if_true, layout, List.cons_append, List.nil_append,
      layoutExit_succeeds, layoutInit_succeeds, Option.getD_some]
    have first := layoutExit_grows faults c v
    generalize layoutExit faults c v = r at first ⊢
    obtain ⟨w, ok⟩ := r
    cases ok with
    | false => exact ⟨by simp, first.isSome held⟩
    | true =>
      have second := layoutInit_grows faults (c + 1) w
      simp only
      generalize layoutInit faults (c + 1) w = r at second ⊢
      obtain ⟨z, ok⟩ := r
      cases ok with
      | false => exact ⟨by simp, second.isSome (first.isSome held)⟩
      | true => exact ⟨by simp, second.isSome (first.isSome held)⟩

/-- A failing claim changes nothing exactly when it is refused the lock and the
struct describes no transaction, or when it cannot fail after the lock. -/
theorem daggerClaim_preserves_iff (faults : Faults) (path : String) (d : Handle) (t : Base σ) :
    Preserves faults path d t ↔
      (Refused faults t → d.nextFp = none) ∧
      (¬Refused faults t → Succeed faults (layout (readdf (locked t) ["current"])) (locked t)) := by
  by_cases refused : Refused faults t
  · obtain ⟨failed, handle, lock⟩ := daggerClaim_refused path d refused
    simp only [refused, forall_const, not_true_eq_false, false_implies, and_true]
    constructor
    · intro preserves
      have same := preserves.handle failed
      rw [handle] at same
      by_contra some
      have stream : d.nextFp.isSome = true := Option.isSome_iff_ne_none.mpr some
      simp [Handle.transaction, Handle.zero, stream] at same
    · intro none
      exact ⟨fun _ => by rw [lock]; exact id, fun _ => by
        rw [handle]; simp [Handle.transaction, Handle.zero, none]⟩
  · obtain ⟨ok, held, missing⟩ := daggerClaim_locked path d refused
    simp only [refused, false_implies, not_false_eq_true, forall_const, true_and]
    rw [← ok]
    constructor
    · intro preserves
      by_contra failed
      rw [Bool.not_eq_true] at failed
      simpa [missing] using preserves.lock failed held
    · intro succeeded
      exact ⟨by simp [succeeded], by simp [succeeded]⟩

/-- The struct of a transaction that is under way is lost by a second claim. -/
theorem daggerClaim_loses_handle :
    let first := daggerClaim (fun _ => false) "/run/net" .zero (.empty : Base String)
    first.ok = true ∧ ¬Preserves (fun _ => false) "/run/net" first.handle first.tree := by
  refine ⟨by decide +kernel, fun preserves => ?_⟩
  exact absurd (preserves.handle (by decide +kernel)) (by decide +kernel)

end Dagger
