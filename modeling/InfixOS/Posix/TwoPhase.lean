import Mathlib.Data.String.Basic

/-! A configuration file that is replaced in two phases: the next version is
prepared beside the live one and later renamed over it, and the version it
replaces is kept. Files are known by their path; none of them is a directory,
and the ones written to are not links. -/
namespace Posix

/-- The files by path. -/
abbrev Files (ε : Type) := String → Option ε

namespace Files
variable {ε : Type}

/-- Create the file, or replace its content. -/
def write (files : Files ε) (path : String) (entry : ε) : Files ε :=
  fun q => if q = path then some entry else files q

/-- remove(3). -/
def remove (files : Files ε) (path : String) : Files ε :=
  fun q => if q = path then none else files q

/-- rename(2), which does nothing when there is no source. -/
def rename (files : Files ε) (source target : String) : Files ε :=
  match files source with
  | none => files
  | some entry => if source = target then files else (files.remove source).write target entry

/-- `access(path, F_OK)`. -/
def present (files : Files ε) (path : String) : Bool := (files path).isSome

theorem rename_source (files : Files ε) (apart : source ≠ target) :
    files.rename source target source = none := by
  cases found : files source with
  | none => simp [rename, found]
  | some entry => simp [rename, found, apart, write, remove]

theorem rename_target (files : Files ε) (found : files source = some entry) :
    files.rename source target target = some entry := by
  by_cases same : source = target
  · subst same
    simp [rename, found]
  · simp [rename, found, same, write]

theorem rename_missing (files : Files ε) (missing : files source = none) :
    files.rename source target = files := by simp [rename, missing]

theorem rename_other (files : Files ε) (source target : String) (left : q ≠ source) (right : q ≠ target) :
    files.rename source target q = files q := by
  cases found : files source with
  | none => simp [rename, found]
  | some entry =>
    by_cases same : source = target
    · subst same
      simp [rename, found]
    · simp [rename, found, same, write, remove, left, right]

@[simp] theorem remove_self (files : Files ε) (path : String) : files.remove path path = none := by
  simp [remove]

@[simp] theorem write_self (files : Files ε) (path : String) (entry : ε) :
    files.write path entry path = some entry := by simp [write]

theorem remove_other (files : Files ε) (other : q ≠ path) : files.remove path q = files q := by
  simp [remove, other]

theorem write_other (files : Files ε) (entry : ε) (other : q ≠ path) :
    files.write path entry q = files q := by simp [write, other]

end Files

/-- Where the replaced version is kept. -/
def previous (conf : String) : String := conf ++ "-"

/-- Where the next version is prepared. -/
def upcoming (conf : String) : String := conf ++ "+"

theorem append_ne_self (conf : String) (nonempty : s ≠ "") : conf ++ s ≠ conf := by
  intro same
  have lists := congrArg String.toList same
  simp [String.toList_append] at lists
  exact nonempty lists

theorem previous_ne (conf : String) : previous conf ≠ conf := append_ne_self conf (by decide)

theorem upcoming_ne (conf : String) : upcoming conf ≠ conf := append_ne_self conf (by decide)

theorem upcoming_ne_previous (conf : String) : upcoming conf ≠ previous conf := by
  intro same
  have lists := congrArg String.toList same
  simp [upcoming, previous, String.toList_append] at lists

namespace Files
variable {ε : Type}

/-- The second phase. -/
def commit (files : Files ε) (conf : String) : Files ε :=
  ((files.remove (previous conf)).rename conf (previous conf)).rename (upcoming conf) conf

/-- The live version and the one it replaced. -/
def versions (files : Files ε) (conf : String) : Option ε × Option ε :=
  (files conf, files (previous conf))

theorem versions_write (files : Files ε) (entry : ε) (live : conf ≠ path) (prev : previous conf ≠ path) :
    (files.write path entry).versions conf = files.versions conf := by
  simp only [versions, write_other _ _ live, write_other _ _ prev]

theorem versions_remove (files : Files ε) (live : conf ≠ path) (prev : previous conf ≠ path) :
    (files.remove path).versions conf = files.versions conf := by
  simp only [versions, remove_other _ live, remove_other _ prev]

theorem versions_prepare (files : Files ε) (entry : ε) :
    (files.write (upcoming conf) entry).versions conf = files.versions conf :=
  versions_write _ _ (upcoming_ne conf).symm (upcoming_ne_previous conf).symm

theorem versions_discard (files : Files ε) :
    (files.remove (upcoming conf)).versions conf = files.versions conf :=
  versions_remove _ (upcoming_ne conf).symm (upcoming_ne_previous conf).symm

theorem commit_upcoming (files : Files ε) (conf : String) :
    files.commit conf (upcoming conf) = none := rename_source _ (upcoming_ne conf)

theorem commit_live (files : Files ε) (prepared : files (upcoming conf) = some entry) :
    files.commit conf conf = some entry := by
  apply rename_target
  rw [rename_other _ _ _ (upcoming_ne conf) (upcoming_ne_previous conf),
    remove_other _ (upcoming_ne_previous conf), prepared]

theorem commit_previous (files : Files ε) (conf : String) :
    files.commit conf (previous conf) = files conf := by
  rw [commit, rename_other _ _ _ (upcoming_ne_previous conf).symm (previous_ne conf)]
  cases live : files conf with
  | none =>
    rw [rename_missing _ (by rw [remove_other _ (previous_ne conf).symm, live]), remove_self]
  | some entry =>
    exact rename_target _ (by rw [remove_other _ (previous_ne conf).symm, live])

theorem commit_other (files : Files ε) (live : q ≠ conf) (prev : q ≠ previous conf)
    (next : q ≠ upcoming conf) : files.commit conf q = files q := by
  rw [commit, rename_other _ _ _ next live, rename_other _ _ _ live prev, remove_other _ prev]

theorem commit_versions (files : Files ε) (prepared : files (upcoming conf) = some entry) :
    (files.commit conf).versions conf = (some entry, files conf) := by
  simp only [versions, commit_live files prepared, commit_previous]

end Files

section Runs
variable {σ τ β : Type} {step : σ → τ → σ} {legal : τ → Prop} {s : σ} {run : List τ}

theorem foldl_inv (inv : σ → Prop) (keeps : ∀ s t, inv s → legal t → inv (step s t)) (start : inv s)
    (all : ∀ t ∈ run, legal t) : inv (run.foldl step s) := by
  induction run generalizing s with
  | nil => exact start
  | cons t later ih =>
    exact ih (keeps s t start (all t List.mem_cons_self))
      fun u member => all u (List.mem_cons_of_mem _ member)

/-- A stretch of a run that commits nothing leaves the view as it was. -/
theorem foldl_view (inv : σ → Prop) (commits : σ → τ → Prop) (view : σ → β)
    (keeps : ∀ s t, inv s → legal t → inv (step s t))
    (quiet : ∀ s t, inv s → legal t → ¬commits s t → view (step s t) = view s) (start : inv s)
    (all : ∀ t ∈ run, legal t)
    (none : ∀ before t after, run = before ++ t :: after → ¬commits (before.foldl step s) t) :
    view (run.foldl step s) = view s := by
  induction run generalizing s with
  | nil => rfl
  | cons t later ih =>
    have legalHere := all t List.mem_cons_self
    rw [List.foldl_cons, ih (keeps s t start legalHere)
      (fun u member => all u (List.mem_cons_of_mem _ member)), quiet s t start legalHere]
    · exact none [] t later rfl
    · intro before u after same
      exact none (t :: before) u after (by rw [same, List.cons_append])

end Runs
end Posix
