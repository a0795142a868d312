import InfixOS.NetTool.Activation

/-! Leaves come up before their parents, and go down after them: the order of the init
actions, the files deps and rdeps it is kept in, and the order of the exit actions. -/
namespace NetTool
open Exec Posix Graph

variable {host : Host} {tree : Tree} {gen : String} {s t : Proc}

/-- The interfaces that `rdeps` goes through. -/
def visits (files : Files) (gen : String) : List String :=
  match files.rdeps gen with
  | none => []
  | some text => fgetsLines 20 text

def exitRc (action : Action) : Entry → Int
  | .file file => fileRc action file
  | _ => 0

theorem undo_eq (action : Action) (ifname : String) (entry : Entry) (s : Proc) :
    undo action ifname entry s = (.ok (exitRc action entry), s.logs (entryLog action ifname entry)) := by
  cases entry with
  | missing => exact Prod.ext rfl (logs_nil s).symm
  | unresolved => exact Prod.ext rfl (logs_nil s).symm
  | file file => exact run_eq action ifname file s

theorem sumOver_undo (tree : Tree) (action : Action) (names : List String) (s : Proc) :
    Program.sumOver names (fun ifname => undo action ifname (tree.action ifname action)) s =
      (.ok (names.map fun i => exitRc action (tree.action i action)).sum,
        s.logs (names.flatMap fun i => entryLog action i (tree.action i action))) := by
  induction names generalizing s with
  | nil => exact Prod.ext rfl (logs_nil s).symm
  | cons i rest ih =>
    refine (Program.sumOver_cons (fun ifname => undo action ifname (tree.action ifname action))
      (undo_eq action i _ s) (ih _)).trans ?_
    rw [logs_logs]
    rfl

theorem rdeps_eq (tree : Tree) (gen : String) (action : Action) (s : Proc) :
    rdeps tree gen action s = (.ok ((visits s.files gen).map fun i => exitRc action (tree.action i action)).sum,
      s.logs ((visits s.files gen).flatMap fun i => entryLog action i (tree.action i action))) := by
  have reading : (Program.read : Net Proc) s = (.ok s, s) := rfl
  rw [rdeps, Program.bind_eq reading, visits]
  cases s.files.rdeps gen with
  | none => exact Prod.ext rfl (logs_nil s).symm
  | some text => exact sumOver_undo tree action _ s

/-- What tearing a generation down returns. -/
def Tree.exitRc (tree : Tree) (order : List String) : Int :=
  (exitActions.map fun action => (order.map fun i => NetTool.exitRc action (tree.action i action)).sum).sum

/-- Each exit action over the interfaces, in the order of the table. -/
theorem deactivate_eq (tree : Tree) (gen : String) (s : Proc) :
    deactivate tree gen s =
      (.ok (tree.exitRc (visits s.files gen)),
        s.logs (exitActions.flatMap fun action =>
          (visits s.files gen).flatMap fun i => entryLog action i (tree.action i action))) := by
  have each : ∀ (actions : List Action) (u : Proc), u.files = s.files → Program.sumOver actions (rdeps tree gen) u =
      (.ok (actions.map fun action => ((visits s.files gen).map fun i => exitRc action (tree.action i action)).sum).sum,
        u.logs (actions.flatMap fun action =>
          (visits s.files gen).flatMap fun i => entryLog action i (tree.action i action))) := by
    intro actions
    induction actions with
    | nil => exact fun u _ => Prod.ext rfl (logs_nil u).symm
    | cons action rest ih =>
      intro u same
      have here := rdeps_eq tree gen action u
      rw [same] at here
      refine (Program.sumOver_cons _ here (ih _ same)).trans ?_
      rw [logs_logs]
      rfl
  exact each exitActions s rfl

/-- What is done about the current generation, up to the question whether it failed. -/
theorem leaveCurrent_ok (left : leaveCurrent trees s = (.ok (), t)) :
    t.files = s.files ∧ t.ifaceList = s.ifaceList ∧ t.dep = s.dep := by
  have reading : (Program.read : Net Proc) s = (.ok s, s) := rfl
  rw [leaveCurrent, Program.bind_eq reading] at left
  cases current : loadGen s.files.gen with
  | error rc =>
    simp only [current, Program.onlyIf] at left
    split at left
    · cases left
    · cases left
      exact ⟨rfl, rfl, rfl⟩
  | ok curr =>
    simp only [current] at left
    rw [Program.bind_eq (deactivate_eq (trees curr) curr s), check, Program.onlyIf] at left
    split at left
    · cases left
    · cases left
      exact ⟨rfl, rfl, rfl⟩

/-- An invocation with something to do. -/
theorem activateNext_eq {host : Host} {trees : String → Tree} {args : List String} {files : Files} {n : String}
    (pipes : host.pipes = true) (loads : loadGen files.next = .ok n) : activateNext host trees (start args files) =
      (do leaveCurrent trees; enterNext host trees n : Net Unit) (start args files) := by
  have piped : (Program.onlyIf (!host.pipes) (Program.fail (.exit 1)) : Net Unit) (start args files) =
      (.ok (), start args files) := by
    rw [pipes]
    rfl
  have reading : (Program.read : Net Proc) (start args files) = (.ok (start args files), start args files) := rfl
  rw [activateNext, Program.bind_eq piped, Program.bind_eq reading]
  simp only [start, loads]

/-- What `sed` makes of the file deps. -/
theorem saveRdeps_eq (lists : Lists s.files gen names) (there : s.files.deps gen = some text) (opens : host.rdeps = true) :
    ∃ t, saveRdeps host gen s = (.ok 0, t) ∧
      t.files = (Write.rdeps gen (unlines names.reverse)).apply s.files := by
  have reading : (Program.read : Net Proc) s = (.ok s, s) := rfl
  have same : text = unlines names := by simpa [there] using lists.text
  have read : lines text = names := by rw [same, lines_unlines fun i member => (lists.named i member).plain]
  rw [saveRdeps, Program.bind_eq reading, there]
  simp only [opens, if_true, read]
  refine ⟨_, rfl, ?_⟩
  simp [Write.apply]

/-- What is saved in gen is read back. -/
theorem loadGen_saved (loads : loadGen file = .ok n) : loadGen (some (unlines [n])) = .ok n := by
  cases file with
  | none => cases loads
  | some text =>
    rw [loadGen] at loads
    cases read : fgetsLines 512 text with
    | nil => simp [read] at loads
    | cons line rest =>
      simp only [read, Except.ok.injEq] at loads
      have bounded := fgetsLines_bounded text 512 (by omega) line (by simp [read])
      rw [loads] at bounded
      have first := fgetsLines_head bounded.1 bounded.2
      rw [loadGen]
      cases again : fgetsLines 512 (unlines [n]) with
      | nil => simp [again] at first
      | cons head tail =>
        rw [again, List.head?_cons, Option.some.injEq] at first
        simp [first]

theorem visits_eq (reversed : (files.rdeps gen).getD [] = unlines names) (named : ∀ i ∈ names, IsName i) :
    visits files gen = names := by
  have reads := IsName.reads named
  rw [visits]
  cases there : files.rdeps gen with
  | none =>
    rw [there, Option.getD_none] at reversed
    rw [← reads, ← reversed]
    rfl
  | some text =>
    rw [there, Option.getD_some] at reversed
    rw [reversed]
    exact reads

/-- Every file the process asks for can be opened. -/
structure Granted (host : Host) : Prop where
  pipes : host.pipes = true
  deps : host.deps = true
  rdeps : host.rdeps = true
  gen : host.gen = true
  next : host.next = true

/-- The rest of an invocation whose init actions have all been run. -/
theorem enterNext_ok (granted : Granted host) (ran : activate host (trees gen) gen s = (.ok 0, t))
    (lists : Lists t.files gen names) (stored : t.dep ≠ 0 → (t.files.deps gen).isSome) :
    ∃ u, enterNext host trees gen s = (.ok (), u) ∧ u.files.deps = t.files.deps ∧
      u.files.rdeps gen = (if t.dep = 0 then t.files.rdeps gen else some (unlines names.reverse)) ∧
      u.files.gen = some (unlines [gen]) ∧ u.files.next = none := by
  have passed (v : Proc) : check 0 v = (.ok (), v) := rfl
  have reading (v : Proc) : (Program.read : Net Proc) v = (.ok v, v) := rfl
  have recorded : ∃ v, (Program.onlyIf (t.dep ≠ 0) (do check (← saveRdeps host gen)) : Net Unit) t = (.ok (), v) ∧
      v.files.deps = t.files.deps ∧
      v.files.rdeps gen = (if t.dep = 0 then t.files.rdeps gen else some (unlines names.reverse)) := by
    by_cases nothing : t.dep = 0
    · exact ⟨t, by simp [nothing, Program.onlyIf, Program.ret], rfl, by simp [nothing]⟩
    · obtain ⟨text, there⟩ := Option.isSome_iff_exists.mp (stored nothing)
      obtain ⟨v, wrote, files⟩ := saveRdeps_eq lists there granted.rdeps
      refine ⟨v, ?_, ?_, ?_⟩
      · rw [Program.onlyIf, if_pos (by simpa using nothing), Program.bind_eq wrote, passed]
      · rw [files]
        rfl
      · rw [files]
        simp [Write.apply, nothing]
  obtain ⟨v, wrote, deps, rdeps⟩ := recorded
  rw [enterNext, Program.bind_eq ran, Program.bind_eq (passed t), Program.bind_eq (reading t), Program.bind_eq wrote,
    saveGen, granted.gen, granted.next]
  exact ⟨_, rfl, deps, rdeps, rfl, rfl⟩

def Tree.has (tree : Tree) (action : Action) (i : String) : Bool :=
  match tree.action i action with
  | .file _ => true
  | _ => false

/-- An action of the interfaces that have it. -/
def Tree.runsOf (tree : Tree) (order : List String) (action : Action) : List (Action × String) :=
  (order.filter (tree.has action)).map fun i => (action, i)

/-- The path of an action leads to a file. -/
def Entry.runnable : Entry → Bool
  | .file _ => true
  | _ => false

theorem runs_fileLog (action : Action) (i : String) (file : File) : runs (fileLog action i file) = [] := by
  rw [fileLog]
  cases pipep action.name with
  | none => rfl
  | some pipe =>
    simp only
    split
    · rfl
    · simp [runs]

theorem runs_entry (action : Action) (owner : String) (entry : Entry) :
    runs (entryLog action owner entry) = if entry.runnable then [(action, owner)] else [] := by
  cases entry with
  | missing => rfl
  | unresolved => rfl
  | file file =>
    rw [entryLog, ← List.singleton_append, runs_append, runs_fileLog]
    rfl

theorem runs_entryLog (tree : Tree) (action : Action) (order : List String) :
    (order.flatMap fun i => runs (entryLog action i (tree.action i action))) = tree.runsOf order action := by
  induction order with
  | nil => rfl
  | cons i rest ih =>
    have has : tree.has action i = (tree.action i action).runnable := rfl
    rw [List.flatMap_cons, runs_entry, ih, Tree.runsOf, Tree.runsOf, List.filter_cons, has]
    cases (tree.action i action).runnable with
    | true => rfl
    | false => rfl

theorem runs_closeLog (action : Action) : runs (closeLog action) = [] := by
  rw [closeLog]
  cases pipep action.name with
  | none => rfl
  | some pipe => rfl

/-- Every interface once, after everything it depends on. -/
structure BottomUp (tree : Tree) (order : List String) : Prop where
  nodup : order.Nodup
  complete : ∀ i, i ∈ order ↔ i ∈ tree.ifaces
  before : ∀ i ∈ tree.ifaces, ∀ c, Relation.TransGen (Edge tree.needs) i c → Before order c i

theorem Tree.order_bottomUp (acyclic : Acyclic tree.needs tree.ifaces) (enough : tree.ifaces.length ≤ stack) :
    (tree.walk stack).2 = true ∧ BottomUp tree (tree.order stack) := by
  have whole := walkAll_acyclic acyclic tree.needs_ifaces enough
  obtain ⟨nodup, complete, closed⟩ := bottomUp_order tree.ifaces tree.ifaces acyclic tree.needs_ifaces enough fun _ => Iff.rfl
  have same : tree.order stack = unseen [] (tree.ifaces.flatMap (visit tree.needs stack [])) := by
    rw [Tree.order, Tree.walk, whole]
  refine ⟨by rw [Tree.walk, whole], ?_⟩
  rw [same]
  exact ⟨nodup, complete, fun i member c path => closed.before path ((complete i).mpr member)⟩

theorem Tree.rc_eq_zero {action : Action} (fine : ∀ i ∈ tree.ifaces, entryRc action (tree.action i action) = 0) :
    tree.rc action stack = 0 := by
  have every : ∀ (tops seen : List String), (∀ i ∈ tops, i ∈ tree.ifaces) → tree.rcFrom action stack tops seen = 0 := by
    intro tops
    induction tops with
    | nil => exact fun _ _ => rfl
    | cons i rest ih =>
      intro seen member
      rw [List.forall_mem_cons] at member
      rw [Tree.rcFrom, ih _ member.2, fine i member.1, ite_self]
      rfl
  exact every tree.ifaces [] fun _ member => member

/-- The exit actions of a generation, in the order of its file rdeps. -/
theorem deactivate_runs (tree : Tree) (reads : visits s.files gen = order) :
    ∃ rc t, deactivate tree gen s = (.ok rc, t) ∧ runs t.log = runs s.log ++ exitActions.flatMap (tree.runsOf order) := by
  refine ⟨_, _, deactivate_eq tree gen s, ?_⟩
  rw [Proc.logs, runs_append, reads, runs_flatMap]
  congr 1
  apply List.flatMap_congr
  intro action _
  rw [runs_flatMap]
  exact runs_entryLog tree action order

/-- A fresh generation comes up leaves first, and the order is kept for the way down. -/
theorem leaves_before_parents {host : Host} {trees : String → Tree} {files : Files} {n : String} {s : Proc}
    (granted : Granted host) (loads : loadGen files.next = .ok n)
    (left : leaveCurrent trees (start [] files) = (.ok (), s))
    (fresh : files.deps n = none ∧ files.rdeps n = none)
    (acyclic : Acyclic (trees n).needs (trees n).ifaces) (enough : (trees n).ifaces.length ≤ host.stack) :
    ∃ order, BottomUp (trees n) order ∧
      (∃ rc t, activate host (trees n) n s = (.ok rc, t) ∧
        runs t.log = runs s.log ++ initActions.flatMap ((trees n).runsOf order) ∧ Lists t.files n order) ∧
      ((∀ action ∈ initActions, ∀ i ∈ (trees n).ifaces, entryRc action ((trees n).action i action) = 0) →
        ∃ u, activateNext host trees (start [] files) = (.ok (), u) ∧ loadGen u.files.gen = .ok n ∧
          Lists u.files n order ∧ (u.files.rdeps n).getD [] = unlines order.reverse ∧
          (∀ i ∈ (trees n).ifaces, ∀ c, Relation.TransGen (Edge (trees n).needs) i c → Before order.reverse i c) ∧
          ∀ (tree : Tree) (v : Proc), v.files.rdeps n = u.files.rdeps n →
            ∃ rc w, deactivate tree n v = (.ok rc, w) ∧
              runs w.log = runs v.log ++ exitActions.flatMap (tree.runsOf order.reverse)) := by
  obtain ⟨same, idle, dep⟩ := leaveCurrent_ok left
  obtain ⟨complete, bottomUp⟩ := Tree.order_bottomUp acyclic enough
  have lists : Lists s.files n [] := ⟨by rw [same]; simp [start, fresh.1], by simp⟩
  obtain ⟨t, ran, _, filesT, depT, log⟩ := activate_spec complete granted.deps idle lists
  have named : ∀ i ∈ (trees n).order host.stack, IsName i :=
    fun i member => (trees n).ifaces_named i ((bottomUp.complete i).mp member)
  have listsT : Lists t.files n ((trees n).order host.stack) := by
    have more := lists.extend named
    rw [List.nil_append] at more
    rw [filesT]
    exact more
  refine ⟨_, bottomUp, ⟨_, t, ran, ?_, listsT⟩, ?_⟩
  · refine (log _ ?_).trans (congrArg _ (List.flatMap_congr fun action _ => ?_))
    · exact fun _ => rfl
    exact congrArg₂ (· ++ ·) (runs_entryLog (trees n) action _) (runs_closeLog action) |>.trans (List.append_nil _)
  · intro fine
    have rc : (initActions.map ((trees n).rc · host.stack)).sum = 0 := by
      have each : ∀ action ∈ initActions, (trees n).rc action host.stack = 0 :=
        fun action member => Tree.rc_eq_zero (fine action member)
      rw [List.map_congr_left each]
      rfl
    rw [rc] at ran
    have stored : t.dep ≠ 0 → (t.files.deps n).isSome := by
      intro some
      have new : unseen [] ((trees n).walk host.stack).1 ≠ [] := by
        intro none
        rw [depT, none, dep] at some
        exact some rfl
      rw [filesT, Files.extend, if_neg new]
      simp [Write.apply]
    obtain ⟨u, entered, deps, rdeps, gen, _⟩ := enterNext_ok granted ran listsT stored
    have whole : activateNext host trees (start [] files) = (.ok (), u) := by
      rw [activateNext_eq granted.pipes loads, Program.bind_eq left, entered]
    have reversed : (u.files.rdeps n).getD [] = unlines ((trees n).order host.stack).reverse := by
      rw [rdeps]
      split
      · rename_i nothing
        have none : (trees n).order host.stack = [] := by
          rw [depT, dep] at nothing
          simpa [start, Tree.order] using nothing
        have before : t.files.rdeps n = files.rdeps n := by
          rw [filesT, Files.extend]
          split
          · rw [same, start]
          · rw [same, start]
            rfl
        rw [before, fresh.2, none]
        rfl
      · rfl
    refine ⟨u, whole, ?_, ⟨by rw [deps]; exact listsT.text, named⟩, reversed, ?_, ?_⟩
    · rw [gen]
      exact loadGen_saved loads
    · intro i member c path
      exact (bottomUp.before i member c path).reverse
    · intro tree v rdepsV
      apply deactivate_runs tree
      apply visits_eq
      · rw [rdepsV, reversed]
      · exact fun i member => named i (List.mem_reverse.mp member)

/-- A bridge over a lag over a port, the bridge first. -/
def lagTree : Tree where
  entries := ["br0", "eth0", "lag0"]
  links := fun i => if i = "br0" then ["eth0", "lag0"] else if i = "lag0" then ["eth0"] else []
  action := fun i action =>
    match action with
    | .initIp => .file ⟨("link set up dev " ++ i).toList, none⟩
    | .exitIp => if i = "eth0" then .file ⟨"link set nomaster dev eth0".toList, none⟩ else .missing
    | _ => .missing
  distinct := by decide
  named := by decide

theorem lagTree_acyclic : Acyclic lagTree.needs lagTree.ifaces := by
  apply Acyclic.of_rank fun i => if i = "br0" then 2 else if i = "lag0" then 1 else 0
  intro v c edge
  have link : c ∈ lagTree.links v := List.mem_of_mem_filter (List.mem_of_mem_filter edge)
  simp only [lagTree] at link
  split at link
  · rename_i bridge
    rcases List.mem_cons.mp link with rfl | link
    · simp [bridge]
    · rw [List.mem_singleton.mp link]
      simp [bridge]
  · split at link
    · rename_i other lag
      rw [List.mem_singleton.mp link]
      simp [lag]
    · cases link

def allGranted : Host := ⟨8, 0, 0, true, true, true, true, true⟩

/-- A directory with next and nothing else of the tool's own. -/
def freshFiles (next : String) : Files := ⟨fun _ => none, fun _ => none, none, some (unlines [next])⟩

theorem leaves_before_parents_lag : ∃ order u, BottomUp lagTree order ∧
    activateNext allGranted (fun _ => lagTree) (start [] (freshFiles "0")) = (.ok (), u) ∧
      (u.files.rdeps "0").getD [] = unlines order.reverse := by
  have granted : Granted allGranted := ⟨rfl, rfl, rfl, rfl, rfl⟩
  have loads : loadGen (freshFiles "0").next = .ok "0" := by decide +kernel
  have left : leaveCurrent (fun _ => lagTree) (start [] (freshFiles "0")) = (.ok (), start [] (freshFiles "0")) := rfl
  have enough : lagTree.ifaces.length ≤ allGranted.stack := by decide
  have fine : ∀ action ∈ initActions, ∀ i ∈ lagTree.ifaces, entryRc action (lagTree.action i action) = 0 := by
    decide +kernel
  obtain ⟨order, bottomUp, _, rest⟩ :=
    leaves_before_parents granted loads left ⟨rfl, rfl⟩ lagTree_acyclic enough
  obtain ⟨u, ran, _, _, reversed, _⟩ := rest fine
  exact ⟨order, u, bottomUp, ran, reversed⟩

end NetTool
