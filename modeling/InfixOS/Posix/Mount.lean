import InfixOS.Posix.FileTree
import Mathlib.Logic.Function.Basic

/-! Directories as maps from paths to their entries, and what is seen of them
through mounts: an overlay looks into its upper directory first, a bind mount shows
its source. -/
namespace Posix

/-- A file system, or a directory of one, by path. -/
abbrev Dir (α : Type) := Path → Option (Node α)

variable {α : Type}

def Node.isDir : Node α → Bool
  | .dir => true
  | _ => false

theorem Node.eq_dir (n : Node α) (dir : n.isDir = true) : n = .dir := by
  cases n with
  | dir => rfl
  | file data executable => simp [isDir] at dir
  | link target => simp [isDir] at dir

namespace Dir

/-- The directory itself and nothing in it. -/
def empty : Dir α := fun q => if q = [] then some .dir else none

def below (d : Dir α) (p : Path) : Dir α := fun q => d (p ++ q)

/-- Another directory in the place of `p`. -/
def graft (d : Dir α) (p : Path) (sub : Dir α) : Dir α :=
  fun q => if p <+: q then sub (q.drop p.length) else d q

/-- `rm -rf`. -/
def rmRf (d : Dir α) (p : Path) : Dir α := fun q => if p <+: q then none else d q

/-- `mkdir -p`, which fails where something other than a directory is in the way. -/
def mkdirP (d : Dir α) (p : Path) : Option (Dir α) :=
  if p.inits.all fun r => (d r).all Node.isDir then
    some fun q => if q <+: p ∧ (d q).isNone then some .dir else d q
  else none

/-- A directory meets something else on the way to `q`. -/
def clash (src dst : Dir α) (q : Path) : Bool :=
  q.inits.any fun r =>
    match src r, dst r with
    | some n, some m => n.isDir != m.isDir
    | _, _ => false

/-- `cp -af src/. dst/`, which goes on after an error: files replace files, and
where a directory meets something else the target stays as it is. -/
def cpAf (src dst : Dir α) : Dir α := fun q => if clash src dst q then dst q else (src q).or (dst q)

/-- Every entry lies in a directory. -/
structure Proper (d : Dir α) : Prop where
  root : d [] = some .dir
  parent : d (p ++ [c]) ≠ none → d p = some .dir

/-- A directory given by its entries. -/
def ofList (entries : List (Path × Node α)) : Dir α := fun p => entries.lookup p

theorem mem_of_ofList (there : ofList entries p = some n) : (p, n) ∈ entries := by
  induction entries with
  | nil => cases there
  | cons e rest ih =>
    rw [ofList, List.lookup_cons] at there
    split at there
    · rename_i same
      rw [eq_of_beq same, ← Option.some.inj there]
      exact List.mem_cons_self
    · exact List.mem_cons_of_mem _ (ih there)

theorem Proper.ofList (root : Dir.ofList entries [] = some .dir)
    (parents : ∀ e ∈ entries, e.1 ≠ [] → Dir.ofList entries e.1.dropLast = some .dir) : (Dir.ofList entries).Proper := by
  refine ⟨root, ?_⟩
  intro p c there
  obtain ⟨n, found⟩ := Option.ne_none_iff_exists'.mp there
  have parent := parents _ (mem_of_ofList found) (by simp)
  rwa [List.dropLast_concat] at parent

theorem Proper.ancestor {d : Dir α} (proper : d.Proper) (nonempty : q ≠ []) (there : d (p ++ q) ≠ none) :
    d p = some .dir := by
  induction q using List.reverseRecOn with
  | nil => exact absurd rfl nonempty
  | append_singleton rest c ih =>
    rw [← List.append_assoc] at there
    have parent := proper.parent there
    by_cases it : rest = []
    · simpa [it] using parent
    · exact ih it (by simp [parent])

theorem mkdirP_ok {d : Dir α} (way : ∀ r, r <+: p → d r = none ∨ d r = some .dir) :
    d.mkdirP p = some fun q => if q <+: p ∧ (d q).isNone then some .dir else d q := by
  refine if_pos (List.all_eq_true.mpr fun r member => ?_)
  rcases way r (List.mem_inits _ _ |>.mp member) with missing | there
  · simp [missing]
  · simp [there, Node.isDir]

@[simp] theorem graft_below (d : Dir α) (p : Path) (sub : Dir α) (q : Path) : d.graft p sub (p ++ q) = sub q := by
  simp [graft]

theorem clash_eq_false {src dst : Dir α}
    (alike : ∀ r n m, r <+: q → src r = some n → dst r = some m → n.isDir = m.isDir) : clash src dst q = false := by
  rw [clash, List.any_eq_false]
  intro r member
  cases here : src r with
  | none => simp
  | some n =>
    cases there : dst r with
    | none => simp
    | some m => simp [alike r n m ((List.mem_inits _ _).mp member) here there]

/-- What is copied shows at the paths in `part` if and only if it covers the target
there, entry by entry and in kind. -/
theorem cpAf_eq_iff {src dst : Dir α} {part : Path → Prop} (closed : ∀ r q, r <+: q → part q → part r) :
    (∀ q, part q → cpAf src dst q = src q) ↔
      ∀ q m, part q → dst q = some m → ∃ n, src q = some n ∧ n.isDir = m.isDir := by
  constructor
  · intro same q m inside there
    have here := same q inside
    rw [cpAf] at here
    cases source : src q with
    | none =>
      rw [source, there] at here
      split at here
      · simp at here
      · simp at here
    | some n =>
      refine ⟨n, rfl, ?_⟩
      by_contra differs
      have clashes : clash src dst q = true := by
        rw [clash, List.any_eq_true]
        exact ⟨q, (List.mem_inits _ _).mpr List.prefix_rfl, by simp [source, there, differs]⟩
      rw [clashes, if_pos rfl, there, source, Option.some.injEq] at here
      exact differs (congrArg Node.isDir here).symm
  · intro covers q inside
    have calm : clash src dst q = false := clash_eq_false fun r n m above here there => by
      obtain ⟨n', here', alike⟩ := covers r m (closed r q above inside) there
      rw [here, Option.some.injEq] at here'
      rw [here', alike]
    rw [cpAf, calm]
    cases source : src q with
    | none =>
      cases target : dst q with
      | none => rfl
      | some m =>
        obtain ⟨n, here, _⟩ := covers q m inside target
        simp [source] at here
    | some n => rfl

end Dir

/-- What is mounted where: a directory of a file system `σ` on a path. -/
inductive Mount (σ : Type) where
  | bind (source : σ × Path) (target : Path)
  | overlay (upper : σ × Path) (target : Path)

namespace Mount
variable {σ : Type}

def source : Mount σ → σ × Path
  | bind source _ => source
  | overlay upper _ => upper

def target : Mount σ → Path
  | bind _ target | overlay _ target => target

/-- What is seen through the mounts, the latest one first. The lower directory of an
overlay is what was seen at its target before. -/
def view (disks : σ → Dir α) (root : Dir α) : List (Mount σ) → Dir α
  | [] => root
  | .bind source target :: earlier => fun p =>
    if target <+: p then disks source.1 (source.2 ++ p.drop target.length) else view disks root earlier p
  | .overlay upper target :: earlier => fun p =>
    if target <+: p then (disks upper.1 (upper.2 ++ p.drop target.length)).or (view disks root earlier p)
    else view disks root earlier p

theorem view_bind_outside (outside : ¬dst <+: p) {disks : σ → Dir α} :
    view disks root (.bind src dst :: earlier) p = view disks root earlier p := if_neg outside

theorem view_bind_below (inside : dst <+: p) {disks : σ → Dir α} :
    view disks root (.bind src dst :: earlier) p = disks src.1 (src.2 ++ p.drop dst.length) := if_pos inside

/-- An overlay without anything in its upper directory is not seen. -/
theorem view_overlay_empty {disks : σ → Dir α} {root : Dir α} {upper : σ × Path} {dst : Path}
    (nothing : ∀ q, q ≠ [] → disks upper.1 (upper.2 ++ q) = none)
    (itself : disks upper.1 upper.2 = none ∨ disks upper.1 upper.2 = some .dir)
    (below : view disks root earlier dst = some .dir) :
    view disks root (.overlay upper dst :: earlier) = view disks root earlier := by
  funext p
  simp only [view]
  split
  · rename_i inside
    obtain ⟨q, rfl⟩ := inside
    rw [List.drop_left]
    by_cases here : q = []
    · subst here
      rw [List.append_nil, List.append_nil, below]
      rcases itself with missing | there
      · rw [missing]
        rfl
      · rw [there]
        rfl
    · rw [nothing q here]
      rfl
  · rfl

end Mount
end Posix
