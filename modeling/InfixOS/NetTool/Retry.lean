import InfixOS.NetTool.Order

/-! Sequences of invocations on one directory, each of which may stop anywhere, and
what their user does to the directory between them. -/
namespace NetTool
open Exec Posix Graph

structure World where
  trees : String → Tree
  files : Files

/-- The files after some of the writes of a process. -/
def replay (files : Files) (ws : List Write) : Files := ws.foldl Write.apply files

/-- The generation can be torn down: rdeps is the reversal of deps, lists every
interface, and is read back. -/
structure Removable (w : World) (n : String) : Prop where
  reversed : ∃ text, w.files.deps n = some text ∧ w.files.rdeps n = some (unlines (lines text).reverse)
  listed : ∀ i ∈ (w.trees n).ifaces, i ∈ lines ((w.files.deps n).getD [])
  visited : ∀ i ∈ (w.trees n).ifaces, i ∈ visits w.files n

/-- What holds between and during invocations. -/
structure Recorded (w : World) : Prop where
  lists : ∀ n, ∃ names, Lists w.files n names
  removable : ∀ n, loadGen w.files.gen = .ok n → Removable w n

variable {host : Host} {trees : String → Tree} {files : Files} {n : String} {s t : Proc}

theorem Lists.lines_eq (lists : Lists files n names) : lines ((files.deps n).getD []) = names := by
  rw [lists.text, lines_unlines fun i member => (lists.named i member).plain]

/-- What a file that lists all interfaces needs besides. -/
theorem Removable.of_lists {w : World} (lists : Lists w.files n names) (there : (w.files.deps n).isSome)
    (reversed : w.files.rdeps n = some (unlines names.reverse)) (every : ∀ i ∈ (w.trees n).ifaces, i ∈ names) :
    Removable w n := by
  obtain ⟨text, stored⟩ := Option.isSome_iff_exists.mp there
  have read := lists.lines_eq
  rw [stored, Option.getD_some] at read
  constructor
  · exact ⟨text, stored, by rw [read, reversed]⟩
  · rw [stored, Option.getD_some, read]
    exact every
  · intro i member
    rw [visits_eq (by rw [reversed, Option.getD_some]) fun i inside => lists.named i (List.mem_reverse.mp inside)]
    exact List.mem_reverse.mpr (every i member)

/-- The same files of a generation, and no new interfaces in it. -/
theorem Removable.congr {w v : World} (removable : Removable w n) (deps : v.files.deps n = w.files.deps n)
    (rdeps : v.files.rdeps n = w.files.rdeps n) (fewer : ∀ i ∈ (v.trees n).ifaces, i ∈ (w.trees n).ifaces) :
    Removable v n := by
  have same : visits v.files n = visits w.files n := by rw [visits, visits, rdeps]
  constructor
  · rw [deps, rdeps]
    exact removable.reversed
  · rw [deps]
    exact fun i member => removable.listed i (fewer i member)
  · rw [same]
    exact fun i member => removable.visited i (fewer i member)

/-- Files of a generation that is not the current one may be written. -/
theorem Recorded.write {w : World} (recorded : Recorded w) (other : loadGen w.files.gen ≠ .ok n) {after : Files}
    (gen : after.gen = w.files.gen) (lists : ∃ names, Lists after n names)
    (same : ∀ m, m ≠ n → after.deps m = w.files.deps m ∧ after.rdeps m = w.files.rdeps m) : Recorded ⟨w.trees, after⟩ := by
  constructor
  · intro m
    by_cases it : m = n
    · rw [it]
      exact lists
    · obtain ⟨names, old⟩ := recorded.lists m
      exact ⟨names, by rw [(same m it).1]; exact old.text, old.named⟩
  · intro m holds
    rw [gen] at holds
    have it : m ≠ n := fun it => other (it ▸ holds)
    exact (recorded.removable m holds).congr (same m it).1 (same m it).2 fun _ member => member

theorem Recorded.congr {w : World} (recorded : Recorded w) {after : Files} (gen : after.gen = w.files.gen)
    (deps : after.deps = w.files.deps) (rdeps : after.rdeps = w.files.rdeps) : Recorded ⟨w.trees, after⟩ := by
  constructor
  · intro n
    obtain ⟨names, old⟩ := recorded.lists n
    exact ⟨names, by rw [deps]; exact old.text, old.named⟩
  · intro n holds
    rw [gen] at holds
    exact (recorded.removable n holds).congr (congrFun deps n) (congrFun rdeps n) fun _ member => member

/-- Every moment of a process up to now has been in order. -/
structure Steady (trees : String → Tree) (files : Files) (s : Proc) : Prop where
  current : s.files = replay files (writes s.log)
  moments : ∀ k, Recorded ⟨trees, replay files ((writes s.log).take k)⟩

theorem Steady.now (steady : Steady trees files s) : Recorded ⟨trees, s.files⟩ := by
  have last := steady.moments (writes s.log).length
  rwa [List.take_length, ← steady.current] at last

theorem Steady.silent (steady : Steady trees files s) (same : t.files = s.files) (nothing : writes t.log = writes s.log) :
    Steady trees files t := by
  constructor
  · rw [same, nothing, steady.current]
  · rw [nothing]
    exact steady.moments

theorem Steady.write (steady : Steady trees files s) (w : Write) (recorded : Recorded ⟨trees, w.apply s.files⟩)
    (after : t.files = w.apply s.files) (logged : writes t.log = writes s.log ++ [w]) : Steady trees files t := by
  have whole : replay files (writes t.log) = w.apply s.files := by
    rw [logged, replay, List.foldl_append, steady.current]
    rfl
  constructor
  · rw [after, whole]
  · intro k
    by_cases earlier : k ≤ (writes s.log).length
    · rw [logged, List.take_append_of_le_length earlier]
      exact steady.moments k
    · rw [List.take_of_length_le (by rw [logged, List.length_append, List.length_singleton]; omega), whole]
      exact recorded

theorem writes_entryLog (action : Action) (i : String) (entry : Entry) : writes (entryLog action i entry) = [] := by
  cases entry with
  | missing => rfl
  | unresolved => rfl
  | file file =>
    have first : writes (entryLog action i (.file file)) = writes (fileLog action i file) := rfl
    rw [first, fileLog]
    cases pipep action.name with
    | none => rfl
    | some pipe =>
      by_cases unopened : file.fault = some .open
      · simp [unopened, writes]
      · simp [unopened, writes]

theorem writes_flatMap (xs : List β) (f : β → List Log) (silent : ∀ x, writes (f x) = []) : writes (xs.flatMap f) = [] := by
  rw [writes, List.flatMap_assoc, List.flatMap_eq_nil_iff]
  exact fun x _ => silent x

theorem Steady.logs (steady : Steady trees files s) (entries : List Log) (nothing : writes entries = []) :
    Steady trees files (s.logs entries) :=
  steady.silent rfl (by rw [Proc.logs, writes_append, nothing, List.append_nil])

theorem Steady.acted (steady : Steady trees files s) (tree : Tree) (action : Action) (i : String) :
    Steady trees files (acted tree action s i) := by
  apply steady.silent (acted_files tree action s i)
  rw [NetTool.acted]
  split
  · rfl
  · rw [Proc.logs, writes_append, writes_entryLog, List.append_nil]

/-- All interfaces of the current generation are listed. -/
theorem Steady.not_current (steady : Steady trees files s) (lists : Lists s.files n names)
    (member : i ∈ (trees n).ifaces) (missing : i ∉ names) : loadGen s.files.gen ≠ .ok n := by
  intro holds
  have listed := (steady.now.removable n holds).listed i member
  rw [lists.lines_eq] at listed
  exact missing listed

/-- Leaving an interface appends it to deps, unless the generation is the current one,
where it stands already. -/
theorem Steady.leave (steady : Steady trees files s) (opens : host.deps = true) (action : Action)
    (member : i ∈ (trees n).ifaces) : Steady trees files (leave host (trees n) n action s i) := by
  obtain ⟨names, lists⟩ := steady.now.lists n
  apply Steady.acted
  rw [saved_eq host n opens lists]
  split
  · exact steady
  · rename_i new
    have other := steady.not_current lists member new
    have single : ∀ j ∈ [i], IsName j := by simpa using (trees n).ifaces_named i member
    refine steady.write (.deps n (unlines (names ++ [i]))) ?_ rfl (writes_append ..)
    refine steady.now.write other rfl ⟨names ++ [i], lists.extend single⟩ fun m isnt => ⟨?_, rfl⟩
    exact Function.update_of_ne isnt ..

theorem Steady.walk (steady : Steady trees files s) (opens : host.deps = true) (action : Action) {l : List String}
    (members : ∀ i ∈ l, i ∈ (trees n).ifaces) : Steady trees files (l.foldl (NetTool.leave host (trees n) n action) s) := by
  induction l generalizing s with
  | nil => exact steady
  | cons i rest ih =>
    rw [List.forall_mem_cons] at members
    exact ih (steady.leave opens action members.1) members.2

theorem Steady.iter (steady : Steady trees files s) (opens : host.deps = true) (action : Action) :
    Steady trees files (iter host (trees n) n action s).2 := by
  have walked := steady.walk opens action ((trees n).walk_ifaces host.stack)
  cases ended : ((trees n).walk host.stack).2 with
  | true =>
    rw [iter_eq n action ended]
    refine (walked.logs (closeLog action) ?_).silent rfl rfl
    rw [closeLog]
    cases pipep action.name with
    | none => rfl
    | some pipe => rfl
  | false =>
    rw [iter_killed n action ended]
    exact walked.logs _ rfl

theorem Steady.activate (steady : Steady trees files s) (opens : host.deps = true) :
    Steady trees files (activate host (trees n) n s).2 := by
  have each : ∀ (actions : List Action) (u : Proc), Steady trees files u →
      Steady trees files (Program.sumOver actions (NetTool.iter host (trees n) n) u).2 := by
    intro actions
    induction actions with
    | nil => exact fun u steady => steady
    | cons action rest ih =>
      intro u steady
      refine Program.bind_state (steady.iter opens action) fun rc t ran => ?_
      have next := steady.iter (n := n) opens action
      rw [ran] at next
      exact Program.bind_state (ih t next) fun _ v ran => by
        have last := ih t next
        rw [ran] at last
        exact last
  exact each initActions s steady

theorem Steady.deactivate (steady : Steady trees files s) (tree : Tree) (m : String) :
    Steady trees files (deactivate tree m s).2 := by
  rw [deactivate_eq]
  apply steady.logs
  apply writes_flatMap
  intro action
  apply writes_flatMap
  exact fun i => writes_entryLog action i _

/-- The reversal is written while another generation is the current one. -/
theorem Steady.saveRdeps (steady : Steady trees files s) (host : Host) (other : loadGen s.files.gen ≠ .ok n)
    (lists : Lists s.files n names) (there : (s.files.deps n).isSome) (every : ∀ i ∈ (trees n).ifaces, i ∈ names) :
    Steady trees files (saveRdeps host n s).2 ∧
      ((saveRdeps host n s).1 = .ok 0 → Removable ⟨trees, (saveRdeps host n s).2.files⟩ n) := by
  obtain ⟨text, stored⟩ := Option.isSome_iff_exists.mp there
  have reading : (Program.read : Net Proc) s = (.ok s, s) := rfl
  have read := lists.lines_eq
  rw [stored, Option.getD_some] at read
  -- rdeps of a generation that is not the current one
  have written (u : Proc) (text : Text) (steady : Steady trees files u) (gen : u.files.gen = s.files.gen)
      (deps : u.files.deps = s.files.deps) : Steady trees files (NetTool.write (.rdeps n text) u).2 := by
    refine steady.write (.rdeps n text) ?_ rfl (writes_append ..)
    refine steady.now.write (gen ▸ other) rfl ⟨names, ?_, lists.named⟩ fun m isnt => ⟨rfl, ?_⟩
    · change (u.files.deps n).getD [] = _
      rw [deps, lists.text]
    · exact Function.update_of_ne isnt ..
  have emptied := written s [] steady rfl rfl
  have filled := written _ (unlines (lines text).reverse) emptied rfl rfl
  rw [NetTool.saveRdeps, Program.bind_eq reading]
  simp only [stored]
  cases host.rdeps with
  | true =>
    refine ⟨filled, fun _ => ?_⟩
    have again : Lists (NetTool.write (.rdeps n (unlines (lines text).reverse)) (NetTool.write (.rdeps n []) s).2).2.files
        n names := ⟨lists.text, lists.named⟩
    refine Removable.of_lists (w := ⟨trees, _⟩) again there ?_ every
    rw [← read]
    exact Function.update_self ..
  | false =>
    refine ⟨emptied, fun failed => ?_⟩
    cases failed

/-- Only a generation that can be torn down becomes the current one. -/
theorem Steady.saveGen (steady : Steady trees files s) (host : Host) (removable : Removable ⟨trees, s.files⟩ n)
    (reads : loadGen (some (unlines [n])) = .ok n) : Steady trees files (saveGen host n s).2 := by
  rw [NetTool.saveGen]
  cases host.gen with
  | false => exact steady
  | true =>
    have lists (after : Files) (same : after.deps = s.files.deps) : ∀ m, ∃ names, Lists after m names := fun m =>
      (steady.now.lists m).imp fun _ old => ⟨by rw [same]; exact old.text, old.named⟩
    have emptied : Steady trees files (NetTool.write (.gen []) s).2 := by
      refine steady.write (.gen []) ⟨lists _ rfl, fun m holds => ?_⟩ rfl (writes_append ..)
      cases holds
    refine emptied.write (.gen (unlines [n])) ⟨lists _ rfl, fun m holds => ?_⟩ rfl (writes_append ..)
    have it : m = n := by
      change loadGen (some (unlines [n])) = .ok m at holds
      rw [reads, Except.ok.injEq] at holds
      exact holds.symm
    rw [it]
    exact removable.congr rfl rfl fun _ member => member

/-- An invocation that sees what is missing: the file deps can be opened, and of the
next generation an interface is not listed there yet, or rdeps is its reversal
already. -/
structure Fit (host : Host) (w : World) : Prop where
  opens : host.deps = true
  next : ∀ n, loadGen w.files.next = .ok n →
    (∃ i ∈ (w.trees n).ifaces, i ∉ lines ((w.files.deps n).getD [])) ∨
      ∃ text, w.files.deps n = some text ∧ w.files.rdeps n = some (unlines (lines text).reverse)

theorem Steady.check (steady : Steady trees files s) (rc : Int) : Steady trees files (check rc s).2 := by
  rw [NetTool.check, Program.onlyIf]
  split
  · exact steady
  · exact steady

theorem check_ok (passed : check rc s = (.ok a, t)) : rc = 0 ∧ t = s := by
  rw [check, Program.onlyIf] at passed
  split at passed
  · cases passed
  · rename_i zero
    cases passed
    exact ⟨by simpa using zero, rfl⟩

/-- An activation that returns has reached every interface. -/
theorem activate_complete {tree : Tree} (ran : activate host tree n s = (.ok rc, t)) :
    (tree.walk host.stack).2 = true := by
  by_contra broken
  have killed : activate host tree n s = (.error .killed, _) :=
    Program.sumOver_error _ (iter_killed n .initEthtool (by simpa using broken) s) _
  rw [killed] at ran
  cases ran

theorem Tree.walk_lists {tree : Tree} (complete : (tree.walk stack).2 = true) (names : List String)
    (member : i ∈ tree.ifaces) : i ∈ names ++ unseen names (tree.walk stack).1 := by
  by_cases old : i ∈ names
  · exact List.mem_append_left _ old
  · exact List.mem_append_right _ (mem_unseen.mpr ⟨(Tree.mem_walk complete).mpr member, old⟩)

/-- Nothing is missing of the next generation. -/
theorem Fit.removable (fit : Fit host ⟨trees, files⟩) (loads : loadGen files.next = .ok n)
    (lists : Lists files n names) (every : ∀ i ∈ (trees n).ifaces, i ∈ names) : Removable ⟨trees, files⟩ n := by
  rcases fit.next n loads with ⟨i, member, missing⟩ | ⟨text, stored, reversed⟩
  · rw [lists.lines_eq] at missing
    exact absurd (every i member) missing
  · have there : files.deps n = some text := stored
    have read := lists.lines_eq
    rw [there, Option.getD_some] at read
    exact Removable.of_lists lists (by simp [there]) (by rw [← read]; exact reversed) every

/-- The call of `save_rdeps`, after which the generation can be torn down. -/
theorem Steady.saveChecked (steady : Steady trees files s) (host : Host) (other : loadGen s.files.gen ≠ .ok n)
    (lists : Lists s.files n names) (there : (s.files.deps n).isSome) (every : ∀ i ∈ (trees n).ifaces, i ∈ names) :
    Steady trees files ((do NetTool.check (← NetTool.saveRdeps host n) : Net Unit) s).2 ∧
      ∀ u, (do NetTool.check (← NetTool.saveRdeps host n) : Net Unit) s = (.ok (), u) → Removable ⟨trees, u.files⟩ n := by
  obtain ⟨saved, removable⟩ := steady.saveRdeps host other lists there every
  constructor
  · refine Program.bind_state saved fun rc u ended => ?_
    rw [ended] at saved
    exact saved.check rc
  · intro u ended
    obtain ⟨rc, v, ran, passed⟩ := Program.bind_ok.mp ended
    obtain ⟨rfl, rfl⟩ := check_ok passed
    rw [ran] at removable
    exact removable rfl

/-- What follows an activation: rdeps is written if deps has grown. -/
theorem Steady.recordNext (steady : Steady trees s.files s) (idle : s.ifaceList = []) (none : s.dep = 0)
    (fit : Fit host ⟨trees, s.files⟩) (loads : loadGen s.files.next = .ok n)
    (ran : NetTool.activate host (trees n) n s = (.ok rc, t)) (active : Steady trees s.files t) :
    Steady trees s.files ((Program.onlyIf (t.dep ≠ 0) do NetTool.check (← NetTool.saveRdeps host n) : Net Unit) t).2 ∧
      ∀ u, (Program.onlyIf (t.dep ≠ 0) do NetTool.check (← NetTool.saveRdeps host n) : Net Unit) t = (.ok (), u) →
        Removable ⟨trees, u.files⟩ n := by
  have complete := activate_complete ran
  obtain ⟨names, lists⟩ := steady.now.lists n
  obtain ⟨t', ran', _, filesT, depT, _⟩ := activate_spec complete fit.opens idle lists
  obtain rfl : t' = t := by
    rw [ran', Prod.mk.injEq] at ran
    exact ran.2
  have every (i : String) (member : i ∈ (trees n).ifaces) := Tree.walk_lists complete names member
  by_cases nothing : unseen names ((trees n).walk host.stack).1 = []
  · rw [nothing] at every filesT depT
    have same : t'.files = s.files := by rw [filesT, Files.extend, if_pos rfl]
    rw [Program.onlyIf, if_neg (by simp [depT, none])]
    refine ⟨active, fun u ended => ?_⟩
    cases ended
    rw [same]
    exact fit.removable loads lists (by simpa using every)
  · have new : t'.dep ≠ 0 := by
      rw [depT, none]
      intro zero
      exact nothing (List.length_eq_zero_iff.mp (by omega))
    obtain ⟨i, fresh⟩ := List.exists_mem_of_ne_nil _ nothing
    have named : ∀ i ∈ unseen names ((trees n).walk host.stack).1, IsName i :=
      fun i member => (trees n).walk_named host.stack i (mem_unseen.mp member).1
    have listsT : Lists t'.files n _ := filesT ▸ lists.extend named
    have other : loadGen t'.files.gen ≠ .ok n := by
      have gen : t'.files.gen = s.files.gen := by
        rw [filesT, Files.extend, if_neg nothing]
        rfl
      rw [gen]
      exact steady.not_current lists ((trees n).walk_ifaces host.stack i (mem_unseen.mp fresh).1) (mem_unseen.mp fresh).2
    have there : (t'.files.deps n).isSome := by
      rw [filesT, Files.extend, if_neg nothing]
      simp [Write.apply]
    rw [Program.onlyIf, if_pos (by simpa using new)]
    exact active.saveChecked host other listsT there every

theorem Steady.enterNext (steady : Steady trees s.files s) (idle : s.ifaceList = []) (none : s.dep = 0)
    (fit : Fit host ⟨trees, s.files⟩) (loads : loadGen s.files.next = .ok n) :
    Steady trees s.files (enterNext host trees n s).2 := by
  have active := steady.activate (n := n) fit.opens
  refine Program.bind_state active fun rc t ran => ?_
  rw [ran] at active
  obtain ⟨before, removable⟩ := steady.recordNext idle none fit loads ran active
  refine Program.bind_state (active.check rc) fun _ u passed => ?_
  obtain ⟨_, rfl⟩ := check_ok passed
  refine Program.bind_state active fun v u read => ?_
  obtain ⟨rfl, rfl⟩ := Program.read_ok.mp read
  refine Program.bind_state before fun _ u ended => ?_
  rw [ended] at before
  have saved := before.saveGen host (removable u ended) (loadGen_saved loads)
  refine Program.bind_state saved fun rc w ran => ?_
  rw [ran] at saved
  refine Program.bind_state (saved.check rc) fun _ x passed => ?_
  obtain ⟨_, rfl⟩ := check_ok passed
  split
  · refine saved.write .removeNext ?_ rfl (writes_append ..)
    exact saved.now.congr rfl rfl rfl
  · exact saved

theorem Steady.start (recorded : Recorded ⟨trees, files⟩) : Steady trees files (start [] files) :=
  ⟨rfl, fun k => by rw [show writes (NetTool.start [] files).log = [] from rfl, List.take_nil]; exact recorded⟩

theorem Steady.leaveCurrent (steady : Steady trees files s) : Steady trees files (leaveCurrent trees s).2 := by
  refine Program.bind_state steady fun u t read => ?_
  obtain ⟨rfl, rfl⟩ := Program.read_ok.mp read
  cases loadGen s.files.gen with
  | error rc =>
    simp only [Program.onlyIf]
    split
    · exact steady
    · exact steady
  | ok curr =>
    have torn := steady.deactivate (trees curr) curr
    refine Program.bind_state torn fun rc t ran => ?_
    rw [ran] at torn
    exact torn.check rc

/-- At every moment of a fit invocation. -/
theorem activateNext_steady (recorded : Recorded ⟨trees, files⟩) (fit : Fit host ⟨trees, files⟩) :
    Steady trees files (activateNext host trees (start [] files)).2 := by
  have begun := Steady.start recorded
  cases pipes : host.pipes with
  | false =>
    have refused : (Program.onlyIf (!host.pipes) (Program.fail (.exit 1)) : Net Unit) (start [] files) =
        (.error (.exit 1), start [] files) := by
      rw [pipes]
      rfl
    rw [activateNext, Program.bind_error refused]
    exact begun
  | true =>
    cases loads : loadGen files.next with
    | error rc =>
      have ended : activateNext host trees (start [] files) = (.error (.exit 0), start [] files) := by
        have piped : (Program.onlyIf (!host.pipes) (Program.fail (.exit 1)) : Net Unit) (start [] files) =
            (.ok (), start [] files) := by
          rw [pipes]
          rfl
        have reading : (Program.read : Net Proc) (start [] files) = (.ok (start [] files), start [] files) := rfl
        rw [activateNext, Program.bind_eq piped, Program.bind_eq reading]
        simp only [start, loads]
        rfl
      rw [ended]
      exact begun
    | ok n =>
      rw [activateNext_eq pipes loads]
      have left := begun.leaveCurrent
      refine Program.bind_state left fun _ t ran => ?_
      rw [ran] at left
      obtain ⟨same, idle, none⟩ := leaveCurrent_ok ran
      have same : t.files = files := same
      subst same
      exact left.enterNext idle none fit loads

/-- What the user of the tool does between invocations: choose a next generation, make
or remove generations other than the current one, and change actions. -/
structure Prepares (w v : World) : Prop where
  gen : v.files.gen = w.files.gen
  files : ∀ n, v.files.deps n = w.files.deps n ∧ v.files.rdeps n = w.files.rdeps n ∨
    loadGen w.files.gen ≠ .ok n ∧ v.files.deps n = none ∧ v.files.rdeps n = none
  current : ∀ n, loadGen w.files.gen = .ok n → ∀ i ∈ (v.trees n).ifaces, i ∈ (w.trees n).ifaces

/-- The states of a directory, at any moment. An invocation has done some of its
writes when it is looked at, or when it is killed. -/
inductive Reached (meets : Host → World → Prop) : World → Prop where
  | fresh (gen : w.files.gen = none) (files : ∀ n, w.files.deps n = none ∧ w.files.rdeps n = none) : Reached meets w
  | invoke (reached : Reached meets w) (host : Host) (met : meets host w) (k : Nat) :
      Reached meets ⟨w.trees, replay w.files ((writes (activateNext host w.trees (start [] w.files)).2.log).take k)⟩
  | prepare (reached : Reached meets w) (prepares : Prepares w v) : Reached meets v

theorem Reached.recorded (reached : Reached Fit w) : Recorded w := by
  induction reached with
  | @fresh w gen files =>
    constructor
    · exact fun n => ⟨[], by rw [(files n).1]; rfl, by simp⟩
    · intro n holds
      rw [gen] at holds
      cases holds
  | invoke _ host met k ih => exact (activateNext_steady ih met).moments k
  | @prepare w v _ prepares ih =>
    constructor
    · intro n
      rcases prepares.files n with ⟨deps, _⟩ | ⟨_, deps, _⟩
      · obtain ⟨names, old⟩ := ih.lists n
        exact ⟨names, by rw [deps]; exact old.text, old.named⟩
      · exact ⟨[], by rw [deps]; rfl, by simp⟩
    · intro n holds
      rw [prepares.gen] at holds
      rcases prepares.files n with ⟨deps, rdeps⟩ | ⟨other, _⟩
      · exact (ih.removable n holds).congr deps rdeps (prepares.current n holds)
      · exact absurd holds other

/-- In every sequence of invocations that see what is missing, the current generation
can be torn down. -/
theorem current_removable {w : World} (reached : Reached Fit w) :
    ∀ n, loadGen w.files.gen = .ok n → Removable w n :=
  reached.recorded.removable

theorem onePort_named : ∀ i ∈ ["eth0"], IsName i := by decide

/-- A generation with one port. -/
def portTree (entry : Entry) : Tree where
  entries := ["eth0"]
  links := fun _ => []
  action := fun _ action => if action = .initIp then entry else .missing
  distinct := List.nodup_singleton _
  named := onePort_named

/-- A directory before the first invocation. -/
def firstWorld (entry : Entry) : World := ⟨fun _ => portTree entry, freshFiles "0"⟩

/-- The files at the end of an invocation of a handful of writes. -/
def World.invoked (w : World) : Files :=
  replay w.files ((writes (activateNext allGranted w.trees (start [] w.files)).2.log).take 8)

theorem current_removable_port : loadGen (firstWorld .missing).invoked.gen = .ok "0" ∧
    Removable ⟨(firstWorld .missing).trees, (firstWorld .missing).invoked⟩ "0" := by
  have fit : Fit allGranted (firstWorld .missing) := by
    have member : "eth0" ∈ (portTree .missing).ifaces := by decide
    have unlisted : "eth0" ∉ lines [] := by decide
    exact ⟨rfl, fun n _ => .inl ⟨"eth0", member, unlisted⟩⟩
  have reached : Reached Fit ⟨(firstWorld .missing).trees, (firstWorld .missing).invoked⟩ :=
    .invoke (.fresh rfl fun _ => ⟨rfl, rfl⟩) allGranted fit 8
  have holds : loadGen (firstWorld .missing).invoked.gen = .ok "0" := by decide +kernel
  exact ⟨holds, current_removable reached "0" holds⟩

/-- The directory after an invocation that failed, with the action mended. -/
def mendedWorld : World := ⟨fun _ => portTree .missing, (firstWorld .unresolved).invoked⟩

/-- The retry of a failed invocation confirms the generation without rdeps. -/
theorem retry_without_rdeps : Reached (fun _ _ => True) ⟨mendedWorld.trees, mendedWorld.invoked⟩ ∧
    loadGen mendedWorld.invoked.gen = .ok "0" ∧ mendedWorld.invoked.rdeps "0" = none := by
  have failed : Reached (fun _ _ => True) ⟨(firstWorld .unresolved).trees, (firstWorld .unresolved).invoked⟩ :=
    .invoke (.fresh rfl fun _ => ⟨rfl, rfl⟩) allGranted trivial 8
  have mended : Reached (fun _ _ => True) mendedWorld :=
    .prepare failed ⟨rfl, fun _ => .inl ⟨rfl, rfl⟩, fun _ _ _ member => member⟩
  refine ⟨.invoke mended allGranted trivial 8, ?_⟩
  decide +kernel

end NetTool
