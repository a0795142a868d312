import InfixOS.NetTool.Order

/-! When a failed init action keeps a generation from being confirmed. -/
namespace NetTool
open Exec Posix Graph

variable {host : Host} {tree : Tree} {gen : String} {s t : Proc}

/-- The files that only the end of an invocation touches. -/
def Untouched (s t : Proc) : Prop := t.files.gen = s.files.gen ∧ t.files.next = s.files.next

theorem leave_untouched (host : Host) (tree : Tree) (gen : String) (action : Action) (s : Proc) (i : String) :
    Untouched s (leave host tree gen action s i) := by
  rw [Untouched, leave, acted_files, saved]
  split
  · exact ⟨rfl, rfl⟩
  · exact ⟨rfl, rfl⟩

theorem leave_fold_untouched (host : Host) (tree : Tree) (gen : String) (action : Action) (l : List String) (s : Proc) :
    Untouched s (l.foldl (leave host tree gen action) s) := by
  induction l generalizing s with
  | nil => exact ⟨rfl, rfl⟩
  | cons i rest ih =>
    have first := leave_untouched host tree gen action s i
    have later := ih (leave host tree gen action s i)
    exact ⟨later.1.trans first.1, later.2.trans first.2⟩

/-- What an activation returns, whatever the tool can write. -/
theorem activate_rc (complete : (tree.walk host.stack).2 = true) (idle : s.ifaceList = []) :
    ∃ t, activate host tree gen s = (.ok (initActions.map (tree.rc · host.stack)).sum, t) ∧ Untouched s t := by
  have one (action : Action) (u : Proc) (free : u.ifaceList = []) :
      ∃ t, iter host tree gen action u = (.ok (tree.rc action host.stack), t) ∧ t.ifaceList = [] ∧ Untouched u t := by
    have rc : tally host tree gen action host.stack tree.ifaces u = tree.rc action host.stack :=
      tally_eq (fun _ member => member) (by simp [free])
    have ran := iter_eq gen action complete u
    rw [rc] at ran
    exact ⟨_, ran, rfl, leave_fold_untouched ..⟩
  obtain ⟨a, first, idleA, sameA⟩ := one .initEthtool s idle
  obtain ⟨b, second, idleB, sameB⟩ := one .initIp a idleA
  obtain ⟨c, third, _, sameC⟩ := one .initBridge b idleB
  refine ⟨c, ?_, ?_⟩
  · exact Program.sumOver_cons _ first (Program.sumOver_cons _ second (Program.sumOver_cons _ third rfl))
  · exact ⟨sameC.1.trans (sameB.1.trans sameA.1), sameC.2.trans (sameB.2.trans sameA.2)⟩

theorem entryRc_nonpos (action : Action) (entry : Entry) : entryRc action entry ≤ 0 := by
  cases entry with
  | missing => simp [entryRc]
  | unresolved => simp [entryRc]
  | file file =>
    simp only [entryRc, fileRc]
    split
    · decide
    · decide

/-- The sum is nonzero if one of the calls from `iter` finds a failing action that no
call before it has come across. -/
theorem rcFrom_ne_zero {action : Action} {tops seen : List String} :
    tree.rcFrom action stack tops seen ≤ 0 ∧ (tree.rcFrom action stack tops seen ≠ 0 ↔
      ∃ before i after, tops = before ++ i :: after ∧ entryRc action (tree.action i action) ≠ 0 ∧
        i ∉ seen ++ (before.flatMap fun u => (Graph.walk tree.needs stack u).1) ++
          (Graph.walk tree.needs stack i).1.dropLast) := by
  induction tops generalizing seen with
  | nil => simp [Tree.rcFrom]
  | cons i rest ih =>
    obtain ⟨later, iff⟩ := @ih (seen ++ (Graph.walk tree.needs stack i).1)
    have here := entryRc_nonpos action (tree.action i action)
    rw [Tree.rcFrom]
    constructor
    · split
      · omega
      · omega
    · constructor
      · intro nonzero
        by_cases rc : tree.rcFrom action stack rest (seen ++ (Graph.walk tree.needs stack i).1) = 0
        · rw [rc] at nonzero
          split at nonzero
          · exact absurd rfl nonzero
          · rename_i new
            exact ⟨[], i, rest, rfl, by omega, by simpa using new⟩
        · obtain ⟨before, j, after, split, fails, new⟩ := iff.mp rc
          refine ⟨i :: before, j, after, by rw [split, List.cons_append], fails, ?_⟩
          simpa [List.append_assoc] using new
      · rintro ⟨before, j, after, split, fails, new⟩
        cases before with
        | nil =>
          obtain ⟨rfl, rfl⟩ := List.cons.inj split
          rw [if_neg (by simpa using new)]
          omega
        | cons u before =>
          obtain ⟨rfl, rfl⟩ := List.cons.inj split
          have nonzero := iff.mpr ⟨before, j, after, rfl, fails, by simpa [List.append_assoc] using new⟩
          split
          · omega
          · omega

/-- In an acyclic generation only the enumeration matters: a failing action is counted
if no interface that comes earlier depends on its own. -/
theorem Tree.rc_ne_zero {action : Action} (acyclic : Acyclic tree.needs tree.ifaces) (complete : (tree.walk stack).2 = true) :
    tree.rc action stack ≠ 0 ↔ ∃ before i after, tree.ifaces = before ++ i :: after ∧
      entryRc action (tree.action i action) ≠ 0 ∧ ∀ u ∈ before, ¬Relation.TransGen (Edge tree.needs) u i := by
  have each := walkAll_complete.mp complete
  rw [Tree.rc, rcFrom_ne_zero.2]
  refine exists_congr fun before => exists_congr fun i => exists_congr fun after => and_congr_right fun split => ?_
  refine and_congr_right fun _ => ?_
  have member : ∀ u ∈ before ++ [i], u ∈ tree.ifaces := by
    intro u inside
    rw [split]
    simp only [List.mem_append, List.mem_singleton] at inside
    rcases inside with inside | rfl
    · exact List.mem_append_left _ inside
    · simp
  have itself : i ∉ (Graph.walk tree.needs stack i).1.dropLast := by
    have there := member i (by simp)
    obtain ⟨below, walk, reached⟩ := walk_eq_concat (each i there)
    rw [walk, List.dropLast_concat]
    exact fun again => acyclic i there (reached i again)
  have distinct : i ∉ before := by
    have nodup := tree.ifaces_nodup
    rw [split, List.nodup_append] at nodup
    exact fun inside => nodup.2.2 i inside i List.mem_cons_self rfl
  simp only [List.nil_append, List.mem_append, List.mem_flatMap, itself, or_false, not_exists, not_and]
  refine forall_congr' fun u => imp_congr_right fun inside => ?_
  rw [Graph.mem_walk (each u (member u (by simp [inside]))), Relation.reflTransGen_iff_eq_or_transGen]
  have other : i ≠ u := fun same => distinct (same ▸ inside)
  simp [other]

/-- The init action of an interface cannot be found, or not be copied. -/
def Tree.Fails (tree : Tree) (action : Action) (i : String) : Prop :=
  match tree.action i action with
  | .missing => False
  | .unresolved => True
  | .file file => (pipep action.name).isSome ∧ file.fault ≠ none

/-- Something of the generation is not applied. -/
def Failure (host : Host) (tree : Tree) : Prop :=
  (∃ action ∈ initActions, ∃ i ∈ tree.ifaces, tree.Fails action i) ∨ host.ipStatus ≠ 0 ∨ host.bridgeStatus ≠ 0

/-- The links have no cycle, and for one of the actions there is an interface whose
path cannot be resolved, or whose file cannot be closed, before every interface that
depends on it. -/
def Visible (tree : Tree) : Prop :=
  Acyclic tree.needs tree.ifaces ∧ ∃ action ∈ initActions, ∃ before i after, tree.ifaces = before ++ i :: after ∧
    (tree.action i action = .unresolved ∨
      ∃ file, tree.action i action = .file file ∧ (pipep action.name).isSome ∧ file.fault = some .close) ∧
    ∀ u ∈ before, ¬Relation.TransGen (Edge tree.needs) u i

theorem entryRc_ne_zero (action : Action) (entry : Entry) : entryRc action entry ≠ 0 ↔
    entry = .unresolved ∨ ∃ file, entry = .file file ∧ (pipep action.name).isSome ∧ file.fault = some .close := by
  cases entry with
  | missing => simp [entryRc]
  | unresolved => simp [entryRc]
  | file file => simp [entryRc, fileRc]

theorem sum_ne_zero {xs : List Int} (nonpos : ∀ x ∈ xs, x ≤ 0) : xs.sum ≠ 0 ↔ ∃ x ∈ xs, x ≠ 0 := by
  have both : xs.sum ≤ 0 ∧ (xs.sum ≠ 0 ↔ ∃ x ∈ xs, x ≠ 0) := by
    induction xs with
    | nil => simp
    | cons x rest ih =>
      rw [List.forall_mem_cons] at nonpos
      obtain ⟨less, iff⟩ := ih nonpos.2
      have here := nonpos.1
      simp only [List.sum_cons, List.exists_mem_cons_iff, ← iff]
      constructor
      · omega
      · omega
  exact both.2

/-- The walk comes to its end exactly if there is no cycle. -/
theorem Tree.complete_iff (enough : tree.ifaces.length ≤ stack) :
    (tree.walk stack).2 = true ↔ Acyclic tree.needs tree.ifaces := by
  constructor
  · intro complete v member cycle
    have ended := walkAll_complete.mp complete v member
    rw [walk_cycle cycle] at ended
    cases ended
  · exact fun acyclic => (Tree.order_bottomUp acyclic enough).1

/-- A failure shows: the activation returns nonzero and the generation is not confirmed. -/
structure Reported (host : Host) (trees : String → Tree) (files : Files) (n : String) (s : Proc) : Prop where
  returned : ∃ rc t, activate host (trees n) n s = (.ok rc, t) ∧ rc ≠ 0
  gen : (activateNext host trees (start [] files)).2.files.gen = files.gen
  next : (activateNext host trees (start [] files)).2.files.next = files.next

theorem reported_iff {host : Host} {trees : String → Tree} {files : Files} {n : String} {s : Proc}
    (pipes : host.pipes = true) (loads : loadGen files.next = .ok n)
    (left : leaveCurrent trees (start [] files) = (.ok (), s)) (enough : (trees n).ifaces.length ≤ host.stack) :
    Reported host trees files n s ↔ Visible (trees n) := by
  obtain ⟨same, idle, _⟩ := leaveCurrent_ok left
  have whole : activateNext host trees (start [] files) = enterNext host trees n s := by
    rw [activateNext_eq pipes loads, Program.bind_eq left]
  by_cases complete : ((trees n).walk host.stack).2 = true
  · have acyclic := (Tree.complete_iff enough).mp complete
    obtain ⟨t, ran, untouched⟩ := activate_rc complete idle
    have nonzero : (initActions.map ((trees n).rc · host.stack)).sum ≠ 0 ↔ Visible (trees n) := by
      rw [sum_ne_zero (by
        intro x member
        obtain ⟨action, _, rfl⟩ := List.mem_map.mp member
        exact rcFrom_ne_zero.1)]
      simp only [List.mem_map, exists_exists_and_eq_and, Tree.rc_ne_zero acyclic complete, entryRc_ne_zero, Visible,
        acyclic, true_and]
    rw [← nonzero]
    constructor
    · rintro ⟨⟨rc, u, returned, bad⟩, _, _⟩
      rw [ran, Prod.mk.injEq, Except.ok.injEq] at returned
      rwa [returned.1]
    · intro bad
      have stopped : activateNext host trees (start [] files) = (.error (.exit 1), t) := by
        rw [whole, enterNext, Program.bind_eq ran]
        refine Program.bind_error ?_ _
        rw [check, Program.onlyIf, if_pos (by simpa using bad)]
        rfl
      refine ⟨⟨_, t, ran, bad⟩, ?_, ?_⟩
      · rw [stopped, untouched.1, same]
        rfl
      · rw [stopped, untouched.2, same]
        rfl
  · have killed : activate host (trees n) n s = (.error .killed, _) :=
      Program.sumOver_error _ (iter_killed n .initEthtool (by simpa using complete) s) _
    constructor
    · rintro ⟨⟨rc, u, returned, _⟩, _, _⟩
      rw [killed] at returned
      cases returned
    · rintro ⟨acyclic, _⟩
      exact absurd ((Tree.complete_iff enough).mpr acyclic) complete

/-- A failure of an init action keeps the generation from being confirmed if and only
if one is visible. -/
theorem failure_reported_iff {host : Host} {trees : String → Tree} {files : Files} {n : String} {s : Proc}
    (pipes : host.pipes = true) (loads : loadGen files.next = .ok n)
    (left : leaveCurrent trees (start [] files) = (.ok (), s)) (enough : (trees n).ifaces.length ≤ host.stack) :
    (Failure host (trees n) → Reported host trees files n s) ↔ (Failure host (trees n) → Visible (trees n)) := by
  rw [reported_iff pipes loads left enough]

/-- A bridge that is enumerated before the port it needs, where the port's path leads
in circles. -/
def loopTree (entries : List String) (distinct : entries.Nodup) (named : ∀ i ∈ entries, IsName i) : Tree where
  entries := entries
  links := fun i => if i = "br0" then ["eth0"] else []
  action := fun i action => if i = "eth0" ∧ action = .initIp then .unresolved else .missing
  distinct := distinct
  named := named

def bridgeFirst : Tree := loopTree ["br0", "eth0"] (by decide) (by decide)

def portFirst : Tree := loopTree ["eth0", "br0"] (by decide) (by decide)

theorem loop_failure (tree : Tree) (member : "eth0" ∈ tree.ifaces) (loop : tree.action "eth0" .initIp = .unresolved) :
    Failure host tree := by
  refine .inl ⟨.initIp, by simp [initActions], "eth0", member, ?_⟩
  rw [Tree.Fails, loop]
  trivial

theorem failure_reported_iff_port : Failure allGranted portFirst ∧
    Reported allGranted (fun _ => portFirst) (freshFiles "0") "0" (start [] (freshFiles "0")) := by
  have failure : Failure allGranted portFirst := loop_failure portFirst (by decide) rfl
  have acyclic : Acyclic portFirst.needs portFirst.ifaces := by
    apply Acyclic.of_rank fun i => if i = "br0" then 1 else 0
    intro v c edge
    have link : c ∈ portFirst.links v := List.mem_of_mem_filter (List.mem_of_mem_filter edge)
    simp only [portFirst, loopTree] at link
    split at link
    · rename_i bridge
      rw [List.mem_singleton.mp link]
      simp [bridge]
    · cases link
  have visible : Visible portFirst :=
    ⟨acyclic, .initIp, by simp [initActions], [], "eth0", ["br0"], by decide, .inl rfl, by simp⟩
  have loads : loadGen (freshFiles "0").next = .ok "0" := by decide +kernel
  have left : leaveCurrent (fun _ => portFirst) (start [] (freshFiles "0")) = (.ok (), start [] (freshFiles "0")) := rfl
  have enough : portFirst.ifaces.length ≤ allGranted.stack := by decide
  have pipes : allGranted.pipes = true := rfl
  exact ⟨failure, (failure_reported_iff pipes loads left enough).mpr (fun _ => visible) failure⟩

/-- The failure of a port that is reached through its bridge is lost. -/
theorem failure_confirmed : Failure allGranted bridgeFirst ∧
    (activate allGranted bridgeFirst "0" (start [] (freshFiles "0"))).1 = .ok 0 ∧
    (activateNext allGranted (fun _ => bridgeFirst) (start [] (freshFiles "0"))).2.files.gen = some (unlines ["0"]) ∧
    (activateNext allGranted (fun _ => bridgeFirst) (start [] (freshFiles "0"))).2.files.next = none := by
  refine ⟨loop_failure bridgeFirst (by decide) rfl, ?_⟩
  decide +kernel

end NetTool
