import InfixOS.Dagger.Store

/-! What a claim leaves behind, for each of the places it can stop at. -/
namespace Dagger
open Posix Posix.FileTree

variable {σ : Type}

theorem attempt_ok {step : Base σ → Base σ × Bool} (ok : (attempt fault t step).2 = true) :
    fault = false ∧ attempt fault t step = step t := by
  cases fault with
  | true => simp [attempt] at ok
  | false => exact ⟨rfl, rfl⟩

theorem attempt_writes {step : Base σ → Base σ × Bool} (writes : Writes allowed t (step t).1) :
    Writes allowed t (attempt fault t step).1 := by
  cases fault with
  | true => exact .refl
  | false => exact writes

theorem andThen_ok {first : Base σ × Bool} {second : Base σ → Base σ × Bool}
    (ok : (andThen first second).2 = true) :
    first.2 = true ∧ andThen first second = second first.1 := by
  obtain ⟨t, done⟩ := first
  cases done with
  | true => exact ⟨rfl, rfl⟩
  | false => simp [andThen] at ok

theorem andThen_writes {first : Base σ × Bool} {second : Base σ → Base σ × Bool}
    (before : Writes allowed t first.1) (after : Writes allowed first.1 (second first.1).1) :
    Writes allowed t (andThen first second).1 := by
  obtain ⟨u, done⟩ := first
  cases done with
  | true => exact before.trans after
  | false => exact before

/-- What preparing the exit action may write. -/
def ExitWrite (c : Int) (q : Path) (n : Node (Item σ)) : Prop :=
  q <+: [genName c, "action", "exit"] ∧ n = .dir ∨ q = exitOrder c ∧ n = .link toTopDown

/-- What laying out the next generation may write. -/
def InitWrite (gen : Int) (q : Path) (n : Node (Item σ)) : Prop :=
  (q <+: [genName gen, "action", "init"] ∨ q <+: [genName gen, "skip"]) ∧ n = .dir ∨
  q = [genName gen, "action", "init", "order"] ∧ n = .link ["..", "..", "bottom-up-order"]

theorem ExitWrite.harmless {k : Nat} {t : Base σ} (fine : ExitWrite (k - 1) q n)
    (locked : (t.get ["next"]).isSome) : Harmless k t q n := by
  rcases fine with ⟨above, rfl⟩ | ⟨rfl, rfl⟩
  · refine .below ?_ ?_ (by simp) locked ?_
    · rintro m r rfl
      simp at above
    · exact (prefix_inside above).imp_right fun ⟨r, same⟩ => ⟨k - 1, r, by omega, same⟩
    · rintro _ rfl
      simp [exitOrder] at above
  · refine .below (by simp [exitOrder]) (.inr ⟨k - 1, _, by omega, rfl⟩) ?_ locked fun _ _ => rfl
    · intro _ m r _ same
      exact .inl ⟨"exit", (List.cons.inj same).2.symm⟩

theorem InitWrite.harmless {k : Nat} {t : Base σ} (fine : InitWrite k q n)
    (locked : (t.get ["next"]).isSome) : Harmless k t q n := by
  have elsewhere (r : Path) : genName k :: r ≠ exitOrder (k - 1) := by
    simp only [exitOrder, ne_eq, List.cons.injEq, genName_inj]
    omega
  rcases fine with ⟨above, rfl⟩ | ⟨rfl, rfl⟩
  · have inside : q = [] ∨ ∃ r, q = genName k :: r := by
      rcases above with above | above
      · exact prefix_inside above
      · exact prefix_inside above
    refine .below ?_ ?_ (by simp) locked ?_
    · rintro m r rfl
      rcases above with above | above
      · simp at above
      · simp at above
    · exact inside.imp_right fun ⟨r, same⟩ => ⟨k, r, by omega, same⟩
    · intro _ same
      rcases inside with rfl | ⟨r, rfl⟩
      · simp [exitOrder] at same
      · exact absurd same (elsewhere r)
  · refine .below (by simp) (.inr ⟨k, _, by omega, rfl⟩) ?_ locked fun _ same => absurd same (elsewhere _)
    · intro _ m r _ same
      exact .inl ⟨"init", (List.cons.inj same).2.symm⟩

theorem layoutExit_writes {k : Nat} {t : Base σ} (store : Store k t) (positive : 0 < k)
    (locked : (t.get ["next"]).isSome) (faults : Faults) :
    Writes (ExitWrite (k - 1)) t (layoutExit faults (k - 1) t).1 := by
  have made : Writes (ExitWrite (k - 1)) t (attempt (faults .mkdirExit) t
      (·.mkdirP [genName (k - 1), "action", "exit"])).1 :=
    attempt_writes ((t.mkdirP_writes _).mono fun q n fine => .inl fine)
  refine andThen_writes made (attempt_writes ((lnS_writes _ _ _).mono ?_))
  have after := store.writes locked made fun v q n locked fine => fine.harmless locked
  rintro q n ⟨same, rfl⟩
  exact .inr ⟨same.trans (destination_of_not_dir _ (after.slot_not_dir positive)), rfl⟩

theorem mkdir_missing {t : Base σ} (fault : Bool) (missing : t.get q = none) (long : p.length < q.length) :
    (attempt fault t (·.mkdirP p)).1.get q = none := by
  rw [(attempt_writes (t.mkdirP_writes p)).frame fun n fine => ?_, missing]
  have short := fine.1.length_le
  omega

/-- Where the order link of the init action goes when it is the last to be made. -/
theorem order_missing {gen : Int} {t : Base σ}
    (fresh : t.get [genName gen, "action", "init", "order"] = none) (faults : Faults) :
    (attempt (faults .mkdirSkip)
      (attempt (faults .mkdirInit) t (·.mkdirP [genName gen, "action", "init"])).1
      (·.mkdirP [genName gen, "skip"])).1.get [genName gen, "action", "init", "order"] = none :=
  mkdir_missing _ (mkdir_missing _ fresh (by simp)) (by simp)

theorem layoutInit_writes {gen : Int} {t : Base σ}
    (fresh : t.get [genName gen, "action", "init", "order"] = none) (faults : Faults) :
    Writes (InitWrite gen) t (layoutInit faults gen t).1 := by
  have init : Writes (InitWrite gen) t (attempt (faults .mkdirInit) t
      (·.mkdirP [genName gen, "action", "init"])).1 :=
    attempt_writes ((t.mkdirP_writes _).mono fun q n fine => .inl ⟨.inl fine.1, fine.2⟩)
  refine andThen_writes init (andThen_writes
    (attempt_writes ((mkdirP_writes _ _).mono fun q n fine => .inl ⟨.inr fine.1, fine.2⟩))
    (attempt_writes ((lnS_writes _ _ _).mono ?_)))
  rintro q n ⟨same, rfl⟩
  exact .inr ⟨same.trans (destination_of_not_dir _ (isDir_missing _ (order_missing fresh faults))), rfl⟩

theorem layoutInit_ok {t : Base σ} (ok : (layoutInit faults gen t).2 = true) :
    (attempt (faults .mkdirSkip)
      (attempt (faults .mkdirInit) t (·.mkdirP [genName gen, "action", "init"])).1
      (·.mkdirP [genName gen, "skip"])).2 = true ∧
    layoutInit faults gen t =
      (attempt (faults .mkdirSkip)
        (attempt (faults .mkdirInit) t (·.mkdirP [genName gen, "action", "init"])).1
        (·.mkdirP [genName gen, "skip"])).1.lnS ["..", "..", "bottom-up-order"]
          [genName gen, "action", "init", "order"] := by
  unfold layoutInit at ok ⊢
  have outer := (andThen_ok ok).2
  rw [outer] at ok ⊢
  obtain ⟨made, inner⟩ := andThen_ok ok
  rw [inner] at ok ⊢
  exact ⟨made, (attempt_ok ok).2⟩

theorem layoutExit_ok {t : Base σ} (ok : (layoutExit faults c t).2 = true) :
    layoutExit faults c t =
      (attempt (faults .mkdirExit) t (·.mkdirP [genName c, "action", "exit"])).1.lnS toTopDown
        (exitOrder c) := by
  unfold layoutExit at ok ⊢
  have outer := (andThen_ok ok).2
  rw [outer] at ok ⊢
  exact (attempt_ok ok).2

/-- After a successful layout the generation is ready for the transaction. -/
theorem layoutInit_prepared {k : Nat} {t : Base σ} (locked : t.get ["next"] = some (.file [] x))
    (fresh : ∀ r, t.get (genName k :: r) = none)
    (previous : 0 < k → t.get (exitOrder (k - 1)) = some (.link toTopDown))
    (ok : (layoutInit faults k t).2 = true) : Prepared k (layoutInit faults k t).1 := by
  have writes := layoutInit_writes (fresh _) faults
  have keep (q : Path) (other : ∀ n : Node (Item σ), ¬InitWrite k q n) :
      (layoutInit faults k t).1.get q = t.get q := writes.frame other
  have noFile : ∀ r data x, (layoutInit faults k t).1.get (genName k :: r) ≠ some (.file data x) := by
    refine writes.keeps (P := fun u => ∀ r data x, u.get (genName k :: r) ≠ some (.file data x)) ?_
      (by simp [fresh])
    intro u q n before _ fine r data x
    rw [get_put]
    split
    · rcases fine with ⟨_, rfl⟩ | ⟨_, rfl⟩
      · simp
      · simp
    · exact before r data x
  refine ⟨⟨?_, ?_, ?_, .inl ?_, ?_, ?_, fun positive => writes.grows.link (previous positive), ?_⟩, x, ?_⟩
  rotate_right
  · rw [keep, locked]
    rintro n (⟨above | above, _⟩ | ⟨same, _⟩)
    · rw [List.cons_prefix_cons] at above
      exact genName_ne_next _ above.1.symm
    · rw [List.cons_prefix_cons] at above
      exact genName_ne_next _ above.1.symm
    · exact genName_ne_next _ (List.cons.inj same).1.symm
  · have missing := order_missing (fresh _) faults
    have linked := (layoutInit_ok ok).2
    rw [linked] at ok ⊢
    exact (lnS_ok _ (isDir_missing _ missing) ok).2
  · rw [keep, fresh]
    rintro n (⟨above | above, _⟩ | ⟨same, _⟩) <;> simp_all
  · rw [keep, fresh]
    rintro n (⟨above | above, _⟩ | ⟨same, _⟩) <;> simp_all
  · rw [keep, fresh]
    rintro n (⟨above | above, _⟩ | ⟨same, _⟩) <;> simp_all
  · intro q executable below
    obtain ⟨data, found⟩ := isExecutable_iff.mp executable
    obtain ⟨r, rfl⟩ := below
    exact absurd found (noFile _ _ _)
  · rw [keep, exitOrder, fresh]
    rintro n (⟨above | above, _⟩ | ⟨same, _⟩) <;> simp_all [exitOrder]
  · obtain ⟨made, linked⟩ := layoutInit_ok ok
    rw [linked]
    apply (lnS_writes _ _ _).grows.dir
    have missing : (attempt (faults .mkdirInit) t (·.mkdirP [genName k, "action", "init"])).1.get
        [genName k, "skip"] = none := by
      rw [(attempt_writes (t.mkdirP_writes _)).frame fun n fine => by simp at fine, fresh]
    have step := (attempt_ok made).2
    rw [step] at made ⊢
    exact mkdirP_ok _ (by simp [missing]) made

theorem layoutExit_linked {k : Nat} {t : Base σ} (store : Store k t) (positive : 0 < k)
    (locked : (t.get ["next"]).isSome) (ok : (layoutExit faults (k - 1) t).2 = true) :
    t.get (exitOrder (k - 1)) = none ∧
    (layoutExit faults (k - 1) t).1.get (exitOrder (k - 1)) = some (.link toTopDown) := by
  have made : Writes (ExitWrite (k - 1)) t (attempt (faults .mkdirExit) t
      (·.mkdirP [genName (k - 1), "action", "exit"])).1 :=
    attempt_writes ((t.mkdirP_writes _).mono fun q n fine => .inl fine)
  have after := store.writes locked made fun v q n locked fine => fine.harmless locked
  have kept : (attempt (faults .mkdirExit) t (·.mkdirP [genName (k - 1), "action", "exit"])).1.get
      (exitOrder (k - 1)) = t.get (exitOrder (k - 1)) := by
    refine (attempt_writes (t.mkdirP_writes _)).frame fun n fine => ?_
    simp [exitOrder] at fine
  have linked := layoutExit_ok ok
  rw [linked] at ok ⊢
  rw [← kept]
  exact lnS_ok _ (after.slot_not_dir positive) ok

/-- What a claim may write. -/
def ClaimWrite (k : Nat) (q : Path) (n : Node (Item σ)) : Prop :=
  q = [] ∧ n = .dir ∨ q = ["next"] ∧ n = .file [] false ∨
  0 < k ∧ ExitWrite (k - 1) q n ∨ InitWrite k q n

/-- A claim keeps the store in order wherever it stops; a successful one has
found the base directory unlocked and leaves a transaction open. -/
structure ClaimEffect (k : Nat) (base : String) (t : Base σ) (claimed : Claimed σ) : Prop where
  store : Store k claimed.tree
  writes : Writes (ClaimWrite k) t claimed.tree
  opened : claimed.ok = true → t.get ["next"] = none ∧ Prepared k claimed.tree ∧
    (0 < k → t.get (exitOrder (k - 1)) = none) ∧ claimed.handle = ⟨k - 1, k, some ["next"], base⟩

theorem readdf_file {t : Base σ} (found : t.get p = some (.file [.num n] x)) :
    readdf t p = some n := by simp [readdf, t.cat_file found]

theorem readdf_missing {t : Base σ} (missing : t.get p = none) : readdf t p = none := by
  simp [readdf, t.cat_missing missing]

theorem Store.readdf_current {k : Nat} {t : Base σ} (store : Store k t) :
    readdf t ["current"] = if 0 < k then some (k - 1 : Int) else none := by
  split
  · rename_i positive
    obtain ⟨x, found⟩ := store.current positive
    exact readdf_file found
  · rename_i zero
    exact readdf_missing (store.first (by omega))

theorem Harmless.root {k : Nat} {t : Base σ} : Harmless k t [] .dir where
  nodes := by simp
  current := by simp
  lock := by simp
  top := by simp
  links := by simp
  bound := by simp
  fresh := by simp
  slot := by simp [exitOrder]

theorem Harmless.next {k : Nat} {t : Base σ} (data : List (Item σ)) (x : Bool) :
    Harmless k t ["next"] (.file data x) where
  nodes := by simp
  current := by decide
  lock := fun _ => ⟨data, x, rfl⟩
  top := by simp
  links := by simp
  bound := fun same => absurd (List.cons.inj same).1.symm (genName_ne_next _)
  fresh := fun _ same => absurd (List.cons.inj same).1.symm (genName_ne_next _)
  slot := by simp [exitOrder]

/-- Everything after the lock has been taken. -/
theorem layout_effect {k : Nat} {t : Base σ} (store : Store k t)
    (locked : t.get ["next"] = some (.file [] x)) (fresh : ∀ r, t.get (genName k :: r) = none)
    (faults : Faults) (exit : Base σ × Bool)
    (same : exit = if 0 < k then layoutExit faults (k - 1) t else (t, true)) :
    Store k exit.1 ∧ Writes (ClaimWrite k) t exit.1 ∧
    Store k (layoutInit faults k exit.1).1 ∧
    Writes (ClaimWrite k) t (layoutInit faults k exit.1).1 ∧
    (exit.2 = true → (layoutInit faults k exit.1).2 = true →
      (0 < k → t.get (exitOrder (k - 1)) = none) ∧ Prepared k (layoutInit faults k exit.1).1) := by
  have held : (t.get ["next"]).isSome := by simp [locked]
  have exits : Writes (fun q n => 0 < k ∧ ExitWrite (k - 1) q n) t exit.1 := by
    rw [same]
    split
    · rename_i positive
      exact (layoutExit_writes store positive held faults).mono fun q n fine => ⟨positive, fine⟩
    · exact .refl
  have storeExit := store.writes held exits fun v q n held fine => fine.2.harmless held
  have other (r : Path) (n : Node (Item σ)) : ¬ExitWrite (k - 1) (genName k :: r) n := by
    rintro (⟨above, _⟩ | ⟨same, _⟩)
    · rw [List.cons_prefix_cons, genName_inj] at above
      omega
    · simp only [exitOrder, List.cons.injEq, genName_inj] at same
      omega
  have still (r : Path) : exit.1.get (genName k :: r) = none := by
    rw [exits.frame fun n fine => other r n fine.2, fresh]
  have inits := layoutInit_writes (still _) faults
  have first : Writes (ClaimWrite k) t exit.1 :=
    exits.mono fun q n fine => .inr (.inr (.inl fine))
  have heldExit := exits.grows.isSome held
  refine ⟨storeExit, first,
    storeExit.writes heldExit inits fun v q n held fine => fine.harmless held,
    first.trans (inits.mono fun q n fine => .inr (.inr (.inr fine))), ?_⟩
  intro exitOk initOk
  have nextKept : exit.1.get ["next"] = some (.file [] x) := by
    rw [exits.frame, locked]
    rintro n ⟨_, ⟨above, _⟩ | ⟨same, _⟩⟩
    · rw [List.cons_prefix_cons] at above
      exact genName_ne_next _ above.1.symm
    · exact genName_ne_next _ (List.cons.inj same).1.symm
  have linked (positive : 0 < k) : t.get (exitOrder (k - 1)) = none ∧
      exit.1.get (exitOrder (k - 1)) = some (.link toTopDown) := by
    rw [if_pos positive] at same
    subst same
    exact layoutExit_linked store positive held exitOk
  exact ⟨fun positive => (linked positive).1,
    layoutInit_prepared nextKept still (fun positive => (linked positive).2) initOk⟩

theorem daggerClaim_effect {k : Nat} {t : Base σ} (store : Store k t) (faults : Faults)
    (base : String) (d : Handle) : ClaimEffect k base t (daggerClaim faults base d t) := by
  have rooted : Writes (fun q n => q = [] ∧ n = .dir) t
      (attempt (faults .mkdirBase) t (·.mkdirP [])).1 :=
    attempt_writes ((t.mkdirP_writes []).mono fun q n fine => ⟨List.prefix_nil.mp fine.1, fine.2⟩)
  have storeRoot : Store k (attempt (faults .mkdirBase) t (·.mkdirP [])).1 :=
    rooted.keeps (fun u q n before write fine => before.put write (fine.1 ▸ fine.2 ▸ .root)) store
  have opened (u : Base σ) : Writes (fun q n => q = ["next"] ∧ n = .file [] false) u
      (attempt (faults .openNext) u (·.openExclusive ["next"])).1 :=
    attempt_writes (u.openExclusive_writes ["next"])
  have exclusive (u : Base σ)
      (ok : (attempt (faults .openNext) u (·.openExclusive ["next"])).2 = true) :
      u.get ["next"] = none ∧ (attempt (faults .openNext) u (·.openExclusive ["next"])).1 =
        u.put ["next"] (.file [] false) := by
    rw [(attempt_ok ok).2]
    have made := u.openExclusive_ok (by rw [← (attempt_ok ok).2, ok])
    exact ⟨made.1, made.2.2⟩
  unfold daggerClaim
  generalize attempt (faults .mkdirBase) t (·.mkdirP []) = r at *
  obtain ⟨t₁, ok⟩ := r
  simp only at rooted storeRoot
  have first : Writes (ClaimWrite k) t t₁ := rooted.mono fun q n fine => .inl fine
  cases ok with
  | false => exact ⟨storeRoot, first, by simp⟩
  | true =>
    have storeNext : Store k (attempt (faults .openNext) t₁ (·.openExclusive ["next"])).1 :=
      (opened t₁).keeps
        (fun u q n before write fine => before.put write (fine.1 ▸ fine.2 ▸ .next [] false)) storeRoot
    have opened := opened t₁
    have exclusive := exclusive t₁
    simp only
    generalize attempt (faults .openNext) t₁ (·.openExclusive ["next"]) = r at *
    obtain ⟨t₂, ok⟩ := r
    have second : Writes (ClaimWrite k) t t₂ :=
      first.trans (opened.mono fun q n fine => .inr (.inl fine))
    cases ok with
    | false => exact ⟨storeNext, second, by simp⟩
    | true =>
      obtain ⟨missing, put⟩ := exclusive rfl
      simp only at put storeNext
      have locked : t₂.get ["next"] = some (.file [] false) := by rw [put, get_put_self]
      have unlocked : t.get ["next"] = none := by
        rw [← rooted.frame fun n fine => by simp at fine, missing]
      have fresh (r : Path) : t₂.get (genName k :: r) = none := by
        rw [put, get_put_of_ne _ _ fun same => genName_ne_next _ (List.cons.inj same).1,
          rooted.frame fun n fine => by simp at fine]
        exact store.fresh unlocked
      have slotKept : t₂.get (exitOrder (k - 1)) = t.get (exitOrder (k - 1)) := by
        rw [put, get_put_of_ne _ _ (by simp [exitOrder]),
          rooted.frame fun n fine => by simp [exitOrder] at fine]
      simp only [storeNext.readdf_current]
      have generation : (if 0 < k then some (k - 1 : Int) else none).getD (-1) = k - 1 := by
        split
        · rfl
        · simp only [Option.getD_none]
          omega
      have branch : (if (if 0 < k then some (k - 1 : Int) else none).isSome = true then
          layoutExit faults (k - 1) t₂ else (t₂, true)) =
          if 0 < k then layoutExit faults (k - 1) t₂ else (t₂, true) := by
        by_cases positive : 0 < k
        · simp [positive]
        · simp [positive]
      simp only [generation, branch]
      have effect := layout_effect storeNext locked fresh faults _ rfl
      generalize (if 0 < k then layoutExit faults (k - 1) t₂ else (t₂, true)) = exit at *
      obtain ⟨t₃, ok⟩ := exit
      obtain ⟨storeExit, writesExit, storeInit, writesInit, success⟩ := effect
      cases ok with
      | false => exact ⟨storeExit, second.trans writesExit, by simp⟩
      | true =>
        simp only [sub_add_cancel]
        simp only at storeInit writesInit success
        generalize layoutInit faults k t₃ = r at *
        obtain ⟨t₄, ok⟩ := r
        cases ok with
        | false => exact ⟨storeInit, second.trans writesInit, by simp⟩
        | true =>
          obtain ⟨slot, prepared⟩ := success trivial rfl
          exact ⟨storeInit, second.trans writesInit, fun _ =>
            ⟨unlocked, prepared, fun positive => slotKept ▸ slot positive, rfl⟩⟩

end Dagger
