import Mathlib.Data.List.Dedup
import Mathlib.Data.List.Infix
import Mathlib.Data.List.Perm.Basic

/-! Finite directory trees keyed by path. A path is the list of its components
below a fixed root directory, which is the empty path. The newest entry of a
path shadows older ones, so `get` is the only observation later proofs use.
Permissions are reduced to the execute bit and every process is the owner. -/
namespace Posix

abbrev Path := List String

inductive Node (α : Type) where
  | dir
  | file (data : List α) (executable : Bool)
  | link (target : Path)
  deriving DecidableEq, Repr

/-- Recursive removal keeps no tombstones: a path is present exactly when it
is the key of some entry. -/
structure FileTree (α : Type) where
  entries : List (Path × Node α)
  deriving Repr

namespace FileTree
variable {α : Type}

def empty : FileTree α := ⟨[]⟩

def find (entries : List (Path × Node α)) (p : Path) : Option (Node α) :=
  match entries with
  | [] => none
  | e :: rest => if p = e.1 then some e.2 else find rest p

def get (t : FileTree α) (p : Path) : Option (Node α) := find t.entries p

def put (t : FileTree α) (p : Path) (n : Node α) : FileTree α := ⟨(p, n) :: t.entries⟩

/-- Remove a path with everything below it. -/
def prune (t : FileTree α) (p : Path) : FileTree α := ⟨t.entries.filter fun e => ¬p <+: e.1⟩

/-- Where the entry `q` is after `src` has been renamed to `dst`. -/
def relocate (src dst q : Path) : Path := if src <+: q then dst ++ q.drop src.length else q

/-- Rename `src` with everything below it to `dst`, replacing what was there. -/
def rename (t : FileTree α) (src dst : Path) : FileTree α :=
  ⟨(t.prune dst).entries.map fun e => (relocate src dst e.1, e.2)⟩

def paths (t : FileTree α) : List Path := (t.entries.map Prod.fst).dedup

/-- The names a directory holds. -/
def names (t : FileTree α) (d : Path) : List String :=
  (t.paths.filter fun q => q.dropLast = d ∧ q ≠ []).map fun q => q.getLastD ""

def isExecutable (t : FileTree α) (p : Path) : Bool :=
  match t.get p with
  | some (.file _ executable) => executable
  | _ => false

/-- The executable regular files at or below a path. -/
def executables (t : FileTree α) (p : Path) : List Path :=
  t.paths.filter fun q => p <+: q ∧ t.isExecutable q

/-- Every entry lies in a directory, up to the root. -/
def Proper (t : FileTree α) : Prop := ∀ p c, (t.get (p ++ [c])).isSome → t.get p = some .dir

@[simp] theorem get_empty (p : Path) : (empty : FileTree α).get p = none := rfl

theorem get_put (t : FileTree α) (p q : Path) (n : Node α) :
    (t.put p n).get q = if q = p then some n else t.get q := rfl

@[simp] theorem get_put_self (t : FileTree α) (p : Path) (n : Node α) :
    (t.put p n).get p = some n := by simp [get_put]

theorem get_put_of_ne (t : FileTree α) (n : Node α) (different : q ≠ p) :
    (t.put p n).get q = t.get q := by simp [get_put, different]

theorem get_prune (t : FileTree α) (p q : Path) :
    (t.prune p).get q = if p <+: q then none else t.get q := by
  obtain ⟨entries⟩ := t
  simp only [get, prune]
  induction entries with
  | nil => simp [find]
  | cons e rest ih =>
    by_cases below : p <+: e.1
    · by_cases same : q = e.1
      · subst same
        simpa [below] using ih
      · simpa [below, find, same] using ih
    · by_cases same : q = e.1
      · subst same
        simp [below, find]
      · simpa [below, find, same] using ih

theorem get_prune_of_not (t : FileTree α) (outside : ¬p <+: q) :
    (t.prune p).get q = t.get q := by simp [get_prune, outside]

theorem relocate_below (src dst r : Path) : relocate src dst (src ++ r) = dst ++ r := by
  simp [relocate]

theorem relocate_of_not (outside : ¬src <+: q) : relocate src dst q = q := by
  simp [relocate, outside]

/-- Neither end of a rename lies below the other, which is what rename(2)
requires of a directory. -/
structure Apart (src dst : Path) : Prop where
  source : ¬src <+: dst
  target : ¬dst <+: src

theorem Apart.disjoint (apart : Apart src dst) (below : dst <+: q) : ¬src <+: q := by
  intro both
  rcases Nat.le_total src.length dst.length with shorter | shorter
  · exact apart.source (List.prefix_of_prefix_length_le both below shorter)
  · exact apart.target (List.prefix_of_prefix_length_le below both shorter)

private theorem find_relocate (entries : List (Path × Node α))
    (cleared : ∀ e ∈ entries, ¬dst <+: e.1) (q : Path) :
    find (entries.map fun e => (relocate src dst e.1, e.2)) q =
      if dst <+: q then find entries (src ++ q.drop dst.length)
      else if src <+: q then none else find entries q := by
  induction entries with
  | nil => simp [find]
  | cons e rest ih =>
    have tail := ih fun e member => cleared e (List.mem_cons_of_mem _ member)
    have free : ¬dst <+: e.1 := cleared e List.mem_cons_self
    simp only [List.map_cons, find, tail]
    by_cases moved : src <+: e.1
    · obtain ⟨r, same⟩ := moved
      rw [← same, relocate_below]
      by_cases below : dst <+: q
      · obtain ⟨s, rfl⟩ := below
        simp
      · have miss : q ≠ dst ++ r := fun h => below (h ▸ List.prefix_append _ _)
        by_cases source : src <+: q
        · simp [below, source, miss]
        · have other : q ≠ src ++ r := fun h => source (h ▸ List.prefix_append _ _)
          simp [below, source, miss, other]
    · rw [relocate_of_not moved]
      by_cases below : dst <+: q
      · obtain ⟨s, rfl⟩ := below
        have miss : dst ++ s ≠ e.1 := fun h => free (h ▸ List.prefix_append _ _)
        have other : src ++ s ≠ e.1 := fun h => moved (h ▸ List.prefix_append _ _)
        simp [miss, other]
      · by_cases source : src <+: q
        · have miss : q ≠ e.1 := fun h => moved (h ▸ source)
          simp [below, source, miss]
        · simp [below, source]

theorem get_rename (t : FileTree α) (apart : Apart src dst) (q : Path) :
    (t.rename src dst).get q =
      if dst <+: q then t.get (src ++ q.drop dst.length)
      else if src <+: q then none else t.get q := by
  have cleared : ∀ e ∈ (t.prune dst).entries, ¬dst <+: e.1 := by
    intro e member
    simpa using (List.mem_filter.mp member).2
  have found (p : Path) : find (t.prune dst).entries p = if dst <+: p then none else t.get p :=
    t.get_prune dst p
  have moved : ¬dst <+: src ++ q.drop dst.length := by
    intro h
    exact apart.disjoint h (List.prefix_append _ _)
  simp only [get, rename, find_relocate _ cleared, found]
  by_cases below : dst <+: q
  · simp [below, moved]
  · simp [below]

theorem get_rename_target (t : FileTree α) (apart : Apart src dst) (r : Path) :
    (t.rename src dst).get (dst ++ r) = t.get (src ++ r) := by
  simp [get_rename t apart]

theorem get_rename_source (t : FileTree α) (apart : Apart src dst) (below : src <+: q) :
    (t.rename src dst).get q = none := by
  have free : ¬dst <+: q := fun h => apart.disjoint h below
  simp [get_rename t apart, free, below]

theorem get_rename_frame (t : FileTree α) (apart : Apart src dst) (source : ¬src <+: q)
    (target : ¬dst <+: q) : (t.rename src dst).get q = t.get q := by
  simp [get_rename t apart, source, target]

theorem Proper.prune {t : FileTree α} (proper : t.Proper) (p : Path) : (t.prune p).Proper := by
  intro q c present
  rw [get_prune] at present
  split at present
  · simp at present
  · rename_i outside
    rw [get_prune_of_not _ fun below => outside (below.trans (List.prefix_append _ _))]
    exact proper q c present

theorem Proper.rename {t : FileTree α} (proper : t.Proper) (apart : Apart src dst)
    (parent : t.get dst.dropLast = some .dir) : (t.rename src dst).Proper := by
  intro q c present
  have outside : ¬src <+: dst.dropLast := fun below => apart.source (below.trans (List.dropLast_prefix _))
  rw [get_rename t apart] at present
  by_cases target : dst <+: q ++ [c]
  · rw [if_pos target] at present
    by_cases whole : dst <+: q
    · obtain ⟨s, rfl⟩ := whole
      rw [get_rename_target t apart]
      apply proper (src ++ s) c
      simpa using present
    · have same : q ++ [c] = dst := by
        rcases List.prefix_concat_iff.mp target with same | below
        · exact same.symm
        · exact absurd below whole
      have up : dst.dropLast = q := by simp [← same]
      rw [get_rename_frame t apart (up ▸ outside) whole, ← up]
      exact parent
  · rw [if_neg target] at present
    have away : ¬dst <+: q := fun below => target (below.trans (List.prefix_append _ _))
    by_cases source : src <+: q ++ [c]
    · simp [source] at present
    · rw [if_neg source] at present
      rw [get_rename_frame t apart (fun below => source (below.trans (List.prefix_append _ _))) away]
      exact proper q c present

private theorem find_isSome (entries : List (Path × Node α)) :
    (find entries p).isSome ↔ p ∈ entries.map Prod.fst := by
  induction entries with
  | nil => simp [find]
  | cons e rest ih =>
    by_cases same : p = e.1
    · simp [find, same]
    · simp [find, same, ih]

theorem mem_paths {t : FileTree α} : p ∈ t.paths ↔ (t.get p).isSome := by
  rw [paths, List.mem_dedup]
  exact (find_isSome t.entries).symm

/-- A finite tree can be checked entry by entry. -/
theorem proper_of_paths {t : FileTree α}
    (each : ∀ q ∈ t.paths, q = [] ∨ t.get q.dropLast = some .dir) : t.Proper := by
  intro p c present
  rcases each _ (mem_paths.mpr present) with empty | parent
  · simp at empty
  · simpa using parent

theorem paths_nodup (t : FileTree α) : t.paths.Nodup := List.nodup_dedup _

theorem mem_names {t : FileTree α} : c ∈ t.names d ↔ (t.get (d ++ [c])).isSome := by
  simp only [names, List.mem_map, List.mem_filter, decide_eq_true_eq, mem_paths]
  constructor
  · rintro ⟨q, ⟨present, rfl, nonempty⟩, rfl⟩
    have split : q.dropLast ++ [q.getLastD ""] = q := by
      rw [List.getLastD_eq_getLast?, List.getLast?_eq_some_getLast nonempty]
      exact List.dropLast_append_getLast nonempty
    rwa [split]
  · intro present
    exact ⟨d ++ [c], ⟨present, by simp, by simp⟩, by simp⟩

theorem names_nodup (t : FileTree α) (d : Path) : (t.names d).Nodup := by
  refine List.Nodup.map_on ?_ (t.paths_nodup.filter _)
  intro p hp q hq same
  simp only [List.mem_filter, decide_eq_true_eq] at hp hq
  have split (r : Path) (nonempty : r ≠ []) : r = r.dropLast ++ [r.getLastD ""] := by
    rw [List.getLastD_eq_getLast?, List.getLast?_eq_some_getLast nonempty]
    exact (List.dropLast_append_getLast nonempty).symm
  rw [split p hp.2.2, split q hq.2.2, same, hp.2.1, hq.2.1]

theorem isExecutable_iff {t : FileTree α} :
    t.isExecutable p = true ↔ ∃ data, t.get p = some (.file data true) := by
  unfold isExecutable
  split <;> simp_all

theorem mem_executables {t : FileTree α} :
    q ∈ t.executables p ↔ p <+: q ∧ ∃ data, t.get q = some (.file data true) := by
  simp only [executables, List.mem_filter, mem_paths, decide_eq_true_eq, isExecutable_iff]
  constructor
  · exact fun h => h.2
  · rintro ⟨below, data, found⟩
    exact ⟨by simp [found], below, data, found⟩

theorem executables_nodup (t : FileTree α) (p : Path) : (t.executables p).Nodup :=
  t.paths_nodup.filter _

end FileTree
end Posix
