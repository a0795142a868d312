import InfixOS.Posix.FileTree

/-! The file commands and library calls a process applies to a directory tree.
Each returns the tree it leaves, partial effects included, and whether it
reported success. A symbolic link is followed where it is the last component of
a path; the directories above it must be real ones. -/
namespace Posix.FileTree
variable {α : Type}

/-- The directory entry a relative link target names, from the directory that
holds the link. -/
def walk (dir target : Path) : Path :=
  target.foldl (fun p c => if c = ".." then p.dropLast else p ++ [c]) dir

def follow (t : FileTree α) : Nat → Path → Path
  | 0, p => p
  | links + 1, p =>
    match t.get p with
    | some (.link target) => follow t links (walk p.dropLast target)
    | _ => p

/-- Path resolution gives up after forty links and then still names a link. -/
def resolve (t : FileTree α) (p : Path) : Path := t.follow 40 p

def isDir (t : FileTree α) (p : Path) : Bool :=
  match t.get (t.resolve p) with
  | some .dir => true
  | _ => false

def isFile (t : FileTree α) (p : Path) : Bool :=
  match t.get (t.resolve p) with
  | some (.file _ _) => true
  | _ => false

/-- What cat(1) prints, nothing for a path that is no readable file. -/
def cat (t : FileTree α) (p : Path) : List α :=
  match t.get (t.resolve p) with
  | some (.file data _) => data
  | _ => []

def mkdirFrom (t : FileTree α) (dir : Path) : Path → FileTree α × Bool
  | [] => (t, true)
  | c :: rest =>
    match t.get (dir ++ [c]) with
    | none => mkdirFrom (t.put (dir ++ [c]) .dir) (dir ++ [c]) rest
    | some .dir => mkdirFrom t (dir ++ [c]) rest
    | some (.link _) => (t, rest.isEmpty && t.isDir (dir ++ [c]))
    | some (.file _ _) => (t, false)

/-- `mkdir -p`, which also creates the root. -/
def mkdirP (t : FileTree α) (p : Path) : FileTree α × Bool :=
  match t.get [] with
  | none => mkdirFrom (t.put [] .dir) [] p
  | some .dir => mkdirFrom t [] p
  | some _ => (t, false)

/-- Where `ln` and `mv` put `base`: inside `dst` when that is a directory. -/
def destination (t : FileTree α) (base : String) (dst : Path) : Path :=
  if t.isDir dst then t.resolve dst ++ [base] else dst

/-- `ln -s target p`. An existing directory receives the link under the
target's own name; any other existing entry is an error. -/
def lnS (t : FileTree α) (target p : Path) : FileTree α × Bool :=
  let q := t.destination (target.getLastD "") p
  match t.get q, t.get q.dropLast with
  | none, some .dir => (t.put q (.link target), true)
  | _, _ => (t, false)

/-- Whether rename(2) may replace what is at `p`. -/
def replaceable (t : FileTree α) (directory : Bool) (p : Path) : Bool :=
  match t.get p with
  | none => t.isDir p.dropLast
  | some .dir => directory && (t.names p).isEmpty
  | some _ => !directory

/-- `mv src dst`, which moves into an existing directory. -/
def mv (t : FileTree α) (src dst : Path) : FileTree α × Bool :=
  let target := t.destination (src.getLastD "") dst
  let directory := (t.get src).any fun | .dir => true | _ => false
  if (t.get src).isNone ∨ src <+: target ∨ target <+: src then (t, false)
  else if t.replaceable directory target then (t.rename src target, true)
  else (t, false)

/-- `rm p` without `-r`. -/
def rm (t : FileTree α) (p : Path) : FileTree α × Bool :=
  match t.get p with
  | none | some .dir => (t, false)
  | some _ => (t.prune p, true)

/-- `fopen(p, "w")`. -/
def openWrite (t : FileTree α) (p : Path) : FileTree α × Bool :=
  let q := t.resolve p
  match t.get q, t.get q.dropLast with
  | some (.file _ executable), _ => (t.put q (.file [] executable), true)
  | none, some .dir => (t.put q (.file [] false), true)
  | _, _ => (t, false)

/-- `fopen(p, "wx")`. -/
def openExclusive (t : FileTree α) (p : Path) : FileTree α × Bool :=
  match t.get p, t.get p.dropLast with
  | none, some .dir => (t.put p (.file [] false), true)
  | _, _ => (t, false)

/-- Create an empty file unless there is one. -/
def touch (t : FileTree α) (p : Path) : FileTree α × Bool :=
  let q := t.resolve p
  match t.get q, t.get q.dropLast with
  | some (.file _ _), _ => (t, true)
  | none, some .dir => (t.put q (.file [] false), true)
  | _, _ => (t, false)

/-- Output to a stream that was opened on `p`. -/
def append (t : FileTree α) (p : Path) (data : List α) : FileTree α :=
  match t.get p with
  | some (.file old executable) => t.put p (.file (old ++ data) executable)
  | _ => t

/-- Standard output redirected to `p`. -/
def redirect (t : FileTree α) (p : Path) (data : List α) : FileTree α × Bool :=
  match t.openWrite p with
  | (u, true) => (u.append (t.resolve p) data, true)
  | (u, false) => (u, false)

def chmodX (t : FileTree α) (p : Path) : FileTree α :=
  match t.get p with
  | some (.file data _) => t.put p (.file data true)
  | _ => t

theorem follow_of_not_link (t : FileTree α) (plain : ∀ target, t.get p ≠ some (.link target)) :
    t.follow n p = p := by
  cases n with
  | zero => rfl
  | succ n => simp only [follow]

theorem resolve_of_not_link (t : FileTree α) (plain : ∀ target, t.get p ≠ some (.link target)) :
    t.resolve p = p := t.follow_of_not_link plain

theorem resolve_of_get (t : FileTree α) (found : t.get p = some .dir ∨ t.get p = none ∨
    ∃ data x, t.get p = some (.file data x)) : t.resolve p = p := by
  apply t.resolve_of_not_link
  rintro target link
  rcases found with h | h | ⟨_, _, h⟩ <;> simp [link] at h

theorem isDir_of_get (t : FileTree α) (found : t.get p = some .dir) : t.isDir p = true := by
  simp [isDir, t.resolve_of_get (.inl found), found]

theorem isDir_iff (t : FileTree α) : t.isDir p = true ↔ t.get (t.resolve p) = some .dir := by
  unfold isDir
  split <;> simp_all

theorem isFile_iff (t : FileTree α) :
    t.isFile p = true ↔ ∃ data x, t.get (t.resolve p) = some (.file data x) := by
  unfold isFile
  split <;> simp_all

theorem cat_of_get (t : FileTree α) (found : t.get (t.resolve p) = some (.file data x)) :
    t.cat p = data := by simp [cat, found]

theorem cat_file (t : FileTree α) (found : t.get p = some (.file data x)) : t.cat p = data :=
  t.cat_of_get (by rw [t.resolve_of_get (.inr (.inr ⟨_, _, found⟩)), found])

theorem cat_missing (t : FileTree α) (missing : t.get p = none) : t.cat p = [] := by
  simp [cat, t.resolve_of_get (.inr (.inl missing)), missing]

private theorem mkdirFrom_ok (t : FileTree α) (dir p : Path) (start : t.get dir = some .dir)
    (plain : ∀ target, t.get (dir ++ p) ≠ some (.link target))
    (ok : (t.mkdirFrom dir p).2 = true) : (t.mkdirFrom dir p).1.get (dir ++ p) = some .dir := by
  induction p generalizing t dir with
  | nil => simpa [mkdirFrom] using start
  | cons c rest ih =>
    have shift : dir ++ c :: rest = dir ++ [c] ++ rest := by simp
    rw [shift] at plain ⊢
    simp only [mkdirFrom] at ok ⊢
    split at ok
    · rename_i missing
      refine ih _ _ (get_put_self _ _ _) ?_ ok
      intro target
      rw [get_put]
      split
      · simp
      · exact plain target
    · rename_i found
      exact ih _ _ found plain ok
    · rename_i target found
      simp only [Bool.and_eq_true, List.isEmpty_iff] at ok
      obtain ⟨rfl, _⟩ := ok
      exact absurd found (by simpa using plain target)
    · contradiction

/-- A successful `mkdir -p` leaves a directory, unless a link to one was there. -/
theorem mkdirP_ok (t : FileTree α) (plain : ∀ target, t.get p ≠ some (.link target))
    (ok : (t.mkdirP p).2 = true) : (t.mkdirP p).1.get p = some .dir := by
  unfold mkdirP at ok ⊢
  split at ok
  · rename_i missing
    refine mkdirFrom_ok _ [] p (get_put_self _ _ _) ?_ ok
    intro target
    rw [List.nil_append, get_put]
    split
    · simp
    · exact plain target
  · rename_i found
    exact mkdirFrom_ok t [] p found plain ok
  · contradiction

theorem destination_of_not_dir (t : FileTree α) (plain : t.isDir dst = false) :
    t.destination base dst = dst := by simp [destination, plain]

theorem destination_of_dir (t : FileTree α) (found : t.get dst = some .dir) :
    t.destination base dst = dst ++ [base] := by
  simp [destination, t.isDir_of_get found, t.resolve_of_get (.inl found)]

/-- Everything `ln -s` can do, `q` being where the link belongs. -/
inductive Linked (t : FileTree α) (target q : Path) : FileTree α × Bool → Prop
  | refused : Linked t target q (t, false)
  | made (missing : t.get q = none) (parent : t.get q.dropLast = some .dir) :
      Linked t target q (t.put q (.link target), true)

theorem lnS_effect (t : FileTree α) (target p : Path) :
    Linked t target (t.destination (target.getLastD "") p) (t.lnS target p) := by
  unfold lnS
  simp only
  split
  · rename_i missing parent
    exact .made missing parent
  · exact .refused

theorem openWrite_ok (t : FileTree α) (opened : t.openWrite p = (u, true)) :
    ∃ x, u.get (t.resolve p) = some (.file [] x) := by
  unfold openWrite at opened
  simp only at opened
  split at opened
  · rename_i x _
    simp only [Prod.mk.injEq, and_true] at opened
    exact ⟨x, by rw [← opened, get_put_self]⟩
  · simp only [Prod.mk.injEq, and_true] at opened
    exact ⟨false, by rw [← opened, get_put_self]⟩
  · simp at opened

/-- An exclusive open either makes a new file or does nothing. -/
theorem openExclusive_ok (t : FileTree α) (ok : (t.openExclusive p).2 = true) :
    t.get p = none ∧ t.get p.dropLast = some .dir ∧
    (t.openExclusive p).1 = t.put p (.file [] false) := by
  unfold openExclusive at ok ⊢
  split at ok
  · rename_i missing parent
    exact ⟨missing, parent, rfl⟩
  · simp at ok

theorem isDir_missing (t : FileTree α) (missing : t.get p = none) : t.isDir p = false := by
  simp [isDir, t.resolve_of_get (.inr (.inl missing)), missing]

/-- A successful `ln -s` that meets no directory leaves the link under the name given. -/
theorem lnS_ok (t : FileTree α) (plain : t.isDir p = false) (ok : (t.lnS target p).2 = true) :
    t.get p = none ∧ (t.lnS target p).1.get p = some (.link target) := by
  have effect := t.lnS_effect target p
  rw [t.destination_of_not_dir plain] at effect
  generalize t.lnS target p = r at effect ok ⊢
  cases effect with
  | refused => simp at ok
  | made missing => exact ⟨missing, get_put_self _ _ _⟩

/-- A path at which a regular file is or can be created. -/
def Writable (t : FileTree α) (p : Path) : Prop :=
  (t.get p = none ∧ t.get p.dropLast = some .dir) ∨ ∃ data x, t.get p = some (.file data x)

theorem Writable.resolve {t : FileTree α} (writable : t.Writable p) : t.resolve p = p := by
  apply t.resolve_of_get
  rcases writable with ⟨missing, _⟩ | found
  · exact .inr (.inl missing)
  · exact .inr (.inr found)

theorem openWrite_writable (t : FileTree α) (writable : t.Writable p) :
    ∃ x, t.openWrite p = (t.put p (.file [] x), true) := by
  simp only [openWrite, writable.resolve]
  rcases writable with ⟨missing, parent⟩ | ⟨data, x, found⟩
  · exact ⟨false, by simp only [missing, parent]⟩
  · exact ⟨x, by simp only [found]⟩

theorem redirect_writable (t : FileTree α) (writable : t.Writable p) (data : List α) :
    ∃ x, (t.redirect p data).2 = true ∧
      (t.redirect p data).1.get p = some (.file data x) := by
  obtain ⟨x, opened⟩ := t.openWrite_writable writable
  refine ⟨x, ?_, ?_⟩
  · simp only [redirect, opened]
  · simp only [redirect, opened, writable.resolve, append, get_put_self, List.nil_append]

/-- Everything `mv` can do, `target` being where the entry belongs. -/
inductive Moved (t : FileTree α) (src target : Path) : FileTree α × Bool → Prop
  | refused : Moved t src target (t, false)
  | renamed (apart : Apart src target) (found : (t.get src).isSome) :
      Moved t src target (t.rename src target, true)

theorem mv_effect (t : FileTree α) (src dst : Path) :
    Moved t src (t.destination (src.getLastD "") dst) (t.mv src dst) := by
  unfold mv
  simp only
  generalize t.destination (src.getLastD "") dst = target
  split
  · exact .refused
  · rename_i allowed
    simp only [not_or, Option.isNone_iff_eq_none] at allowed
    obtain ⟨found, source, dest⟩ := allowed
    split
    · exact .renamed ⟨source, dest⟩ (Option.isSome_iff_ne_none.mpr found)
    · exact .refused

/-- A file can be moved to where a file could be written. -/
theorem mv_file (t : FileTree α) (found : t.get src = some (.file data x))
    (writable : t.Writable dst) (apart : Apart src dst) :
    t.mv src dst = (t.rename src dst, true) := by
  have plain : t.isDir dst = false := by
    rw [isDir, writable.resolve]
    rcases writable with ⟨missing, _⟩ | ⟨_, _, present⟩
    · rw [missing]
    · rw [present]
  have allowed : t.replaceable false dst = true := by
    rw [replaceable]
    rcases writable with ⟨missing, parent⟩ | ⟨_, _, present⟩
    · simp [missing, t.isDir_of_get parent]
    · simp [present]
  simp [mv, t.destination_of_not_dir plain, found, allowed, apart.source, apart.target]

end Posix.FileTree
