import InfixOS.Posix.Commands

/-! What the commands that add to a tree have in common. Each of them is a
sequence of single writes, and a property of trees that every allowed write
keeps is kept by the command. -/
namespace Posix.FileTree
variable {α : Type}

/-- Nothing disappears: directories and links stay, files stay files. -/
structure Grows (t u : FileTree α) : Prop where
  dir : t.get p = some .dir → u.get p = some .dir
  link : t.get p = some (.link target) → u.get p = some (.link target)
  file : t.get p = some (.file data x) → ∃ data' x', u.get p = some (.file data' x')

namespace Grows

theorem refl (t : FileTree α) : Grows t t := ⟨id, id, fun h => ⟨_, _, h⟩⟩

theorem trans {t u v : FileTree α} (first : Grows t u) (second : Grows u v) : Grows t v where
  dir h := second.dir (first.dir h)
  link h := second.link (first.link h)
  file h := by
    obtain ⟨_, _, h⟩ := first.file h
    exact second.file h

theorem put_fresh (t : FileTree α) (n : Node α) (fresh : t.get p = none) :
    Grows t (t.put p n) := by
  have keep {q m} (h : t.get q = some m) : (t.put p n).get q = some m := by
    rw [get_put_of_ne _ _ (by rintro rfl; simp [fresh] at h), h]
  exact ⟨keep, keep, fun h => ⟨_, _, keep h⟩⟩

theorem put_file (t : FileTree α) (found : t.get p = some (.file data x)) :
    Grows t (t.put p (.file data' x')) := by
  have keep {q m} (h : t.get q = some m) (different : q ≠ p) :
      (t.put p (.file data' x')).get q = some m := by rw [get_put_of_ne _ _ different, h]
  refine ⟨fun h => keep h ?_, fun h => keep h ?_, ?_⟩
  · rintro rfl; simp [found] at h
  · rintro rfl; simp [found] at h
  · intro q data₁ x₁ h
    by_cases same : q = p
    · subst same; exact ⟨_, _, get_put_self _ _ _⟩
    · exact ⟨_, _, keep h same⟩

theorem isSome {t u : FileTree α} (grows : Grows t u) (h : (t.get p).isSome) :
    (u.get p).isSome := by
  obtain ⟨node, found⟩ := Option.isSome_iff_exists.mp h
  cases node with
  | dir => simp [grows.dir found]
  | link target => simp [grows.link found]
  | file data x =>
    obtain ⟨_, _, found⟩ := grows.file found
    simp [found]

end Grows

/-- An entry is created in a directory, or a file is written anew. -/
inductive Write (t : FileTree α) (q : Path) : Node α → Prop
  | create (missing : t.get q = none) (parent : q = [] ∨ t.get q.dropLast = some .dir)
      (n : Node α) : Write t q n
  | rewrite (found : t.get q = some (.file data x)) (data' : List α) (x' : Bool) :
      Write t q (.file data' x')

/-- `u` is `t` after any number of allowed writes. -/
inductive Writes (allowed : Path → Node α → Prop) (t : FileTree α) : FileTree α → Prop
  | refl : Writes allowed t t
  | put (before : Writes allowed t u) (write : Write u q n) (fine : allowed q n) :
      Writes allowed t (u.put q n)

theorem Write.grows {t : FileTree α} (write : Write t q n) : Grows t (t.put q n) := by
  cases write with
  | create missing => exact .put_fresh t n missing
  | rewrite found => exact .put_file t found

theorem Write.proper {t : FileTree α} (write : Write t q n) (proper : t.Proper) :
    (t.put q n).Proper := by
  intro p c present
  apply write.grows.dir
  rw [get_put] at present
  split at present
  · rename_i same
    cases write with
    | create _ parent =>
      rcases parent with root | parent
      · simp [root] at same
      · simpa [← same] using parent
    | rewrite found => exact proper p c (by simp [same, found])
  · exact proper p c present

namespace Writes
variable {allowed permitted : Path → Node α → Prop} {t u v : FileTree α}

/-- What every allowed write keeps, the whole sequence keeps. -/
theorem keeps (writes : Writes allowed t u) {P : FileTree α → Prop}
    (each : ∀ u q n, P u → Write u q n → allowed q n → P (u.put q n)) (start : P t) : P u := by
  induction writes with
  | refl => exact start
  | put _ write fine ih => exact each _ _ _ ih write fine

theorem trans (first : Writes allowed t u) (second : Writes allowed u v) : Writes allowed t v :=
  second.keeps (fun _ _ _ before write fine => .put before write fine) first

theorem mono (writes : Writes allowed t u) (weaker : ∀ q n, allowed q n → permitted q n) :
    Writes permitted t u :=
  writes.keeps (fun _ _ _ before write fine => .put before write (weaker _ _ fine)) .refl

theorem grows (writes : Writes allowed t u) : Grows t u :=
  writes.keeps (fun _ _ _ before write _ => before.trans write.grows) (.refl t)

theorem proper (writes : Writes allowed t u) : t.Proper → u.Proper :=
  writes.keeps fun _ _ _ before write _ => write.proper before

theorem frame (writes : Writes allowed t u) (outside : ∀ n, ¬allowed q n) : u.get q = t.get q := by
  refine writes.keeps (P := fun u => u.get q = t.get q) ?_ rfl
  intro u p n before _ fine
  have different : q ≠ p := by
    rintro rfl
    exact outside n fine
  rw [get_put_of_ne _ _ different, before]

end Writes

private theorem mkdirFrom_writes (t : FileTree α) (dir p : Path) (start : t.get dir = some .dir) :
    Writes (fun q n => q <+: dir ++ p ∧ n = .dir) t (t.mkdirFrom dir p).1 := by
  induction p generalizing t dir with
  | nil => exact .refl
  | cons c rest ih =>
    have shift : dir ++ c :: rest = dir ++ [c] ++ rest := by simp
    rw [shift]
    simp only [mkdirFrom]
    split
    · rename_i missing
      refine .trans (.put .refl (.create missing (.inr ?_) _) ⟨List.prefix_append _ _, rfl⟩)
        (ih _ _ (get_put_self _ _ _))
      simpa using start
    · rename_i found
      exact ih t (dir ++ [c]) found
    · exact .refl
    · exact .refl

theorem mkdirP_writes (t : FileTree α) (p : Path) :
    Writes (fun q n => q <+: p ∧ n = .dir) t (t.mkdirP p).1 := by
  unfold mkdirP
  split
  · rename_i missing
    exact .trans (.put .refl (.create missing (.inl rfl) _) ⟨List.nil_prefix, rfl⟩)
      (mkdirFrom_writes _ [] p (get_put_self _ _ _))
  · rename_i found
    exact mkdirFrom_writes t [] p found
  · exact .refl

theorem lnS_writes (t : FileTree α) (target p : Path) :
    Writes (fun q n => q = t.destination (target.getLastD "") p ∧ n = .link target) t
      (t.lnS target p).1 := by
  have effect := t.lnS_effect target p
  generalize t.lnS target p = r at effect ⊢
  cases effect with
  | refused => exact .refl
  | made missing parent => exact .put .refl (.create missing (.inr parent) _) ⟨rfl, rfl⟩

theorem openWrite_writes (t : FileTree α) (p : Path) :
    Writes (fun q n => q = t.resolve p ∧ ∃ x, n = .file [] x) t (t.openWrite p).1 := by
  unfold openWrite
  simp only
  split
  · rename_i data x found
    exact .put .refl (.rewrite found _ _) ⟨rfl, x, rfl⟩
  · rename_i missing parent
    exact .put .refl (.create missing (.inr parent) _) ⟨rfl, false, rfl⟩
  · exact .refl

theorem openExclusive_writes (t : FileTree α) (p : Path) :
    Writes (fun q n => q = p ∧ n = .file [] false) t (t.openExclusive p).1 := by
  unfold openExclusive
  split
  · rename_i missing parent
    exact .put .refl (.create missing (.inr parent) _) ⟨rfl, rfl⟩
  · exact .refl

theorem touch_writes (t : FileTree α) (p : Path) :
    Writes (fun q n => q = t.resolve p ∧ n = .file [] false) t (t.touch p).1 := by
  unfold touch
  simp only
  split
  · exact .refl
  · rename_i missing parent
    exact .put .refl (.create missing (.inr parent) _) ⟨rfl, rfl⟩
  · exact .refl

theorem append_writes (t : FileTree α) (p : Path) (data : List α) :
    Writes (fun q n => q = p ∧ ∃ data x, n = .file data x) t (t.append p data) := by
  unfold append
  split
  · rename_i old x found
    exact .put .refl (.rewrite found _ _) ⟨rfl, _, x, rfl⟩
  · exact .refl

theorem chmodX_writes (t : FileTree α) (p : Path) :
    Writes (fun q n => q = p ∧ ∃ data, n = .file data true) t (t.chmodX p) := by
  unfold chmodX
  split
  · rename_i data x found
    exact .put .refl (.rewrite found _ _) ⟨rfl, data, rfl⟩
  · exact .refl

theorem redirect_writes (t : FileTree α) (p : Path) (data : List α) :
    Writes (fun q n => q = t.resolve p ∧ ∃ data x, n = .file data x) t (t.redirect p data).1 := by
  have opened : Writes (fun q n => q = t.resolve p ∧ ∃ data x, n = .file data x) t
      (t.openWrite p).1 := (t.openWrite_writes p).mono fun q n fine => ⟨fine.1, [], fine.2⟩
  unfold redirect
  split
  · rename_i u same
    rw [same] at opened
    exact opened.trans (u.append_writes _ _)
  · rename_i u same
    rwa [same] at opened

/-- Writing to a plain path touches that path only. -/
theorem redirect_plain (t : FileTree α) (writable : t.Writable p) (data : List α) :
    Writes (fun q n => q = p ∧ ∃ data x, n = .file data x) t (t.redirect p data).1 := by
  have writes := t.redirect_writes p data
  rwa [writable.resolve] at writes

theorem Writes.writable {allowed : Path → Node α → Prop} {t u : FileTree α}
    (writes : Writes allowed t u) (writable : t.Writable p)
    (files : ∀ n, allowed p n → ∃ data x, n = .file data x) : u.Writable p := by
  refine writes.keeps (P := fun u => u.Writable p) ?_ writable
  intro u q n before write fine
  by_cases same : p = q
  · subst same
    obtain ⟨data, x, rfl⟩ := files n fine
    exact .inr ⟨data, x, get_put_self _ _ _⟩
  · rcases before with ⟨missing, parent⟩ | ⟨data, x, found⟩
    · exact .inl ⟨by rw [get_put_of_ne _ _ same, missing], write.grows.dir parent⟩
    · exact .inr ⟨data, x, by rw [get_put_of_ne _ _ same, found]⟩

end Posix.FileTree
