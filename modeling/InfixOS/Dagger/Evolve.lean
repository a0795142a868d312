import InfixOS.Dagger.Naming
import InfixOS.Dagger.Order

/-! What one evolve runs. The two loops of the tool run one list of command
lines up to the first that fails; the list itself is read off the scripts of
both generations, in the order their names stand for. -/
namespace Dagger
open Posix Posix.FileTree

variable {σ : Type}

/-- The command lines that are started when a run stops at the first failure. -/
def upToFailure (exit : List String → Nat) : List (List String) → Trace
  | [] => []
  | argv :: rest => (argv, exit argv) :: if exit argv = 0 then upToFailure exit rest else []

def allZero (exit : List String → Nat) (lines : List (List String)) : Bool :=
  lines.all fun argv => exit argv = 0

theorem upToFailure_append (exit : List String → Nat) (first second : List (List String)) :
    upToFailure exit (first ++ second) =
      upToFailure exit first ++ if allZero exit first then upToFailure exit second else [] := by
  induction first with
  | nil => simp [upToFailure, allZero]
  | cons argv rest ih =>
    simp only [allZero] at ih
    by_cases zero : exit argv = 0
    · simp [upToFailure, allZero, zero, ih]
    · simp [upToFailure, allZero, zero]

theorem upToFailure_allZero {lines : List (List String)} (zero : allZero exit lines = true) :
    upToFailure exit lines = lines.map fun argv => (argv, 0) := by
  induction lines with
  | nil => rfl
  | cons argv rest ih =>
    simp only [allZero, List.all_cons, Bool.and_eq_true, decide_eq_true_eq] at zero
    simp [upToFailure, zero.1, ih zero.2]

theorem allZero_append (exit : List String → Nat) (first second : List (List String)) :
    allZero exit (first ++ second) = (allZero exit first && allZero exit second) := by
  simp [allZero]

theorem runWorks_eq (env : Env) (works : List String) :
    runWorks env works =
      (upToFailure env.exit (works.map env.sh.expand), allZero env.exit (works.map env.sh.expand)) := by
  induction works with
  | nil => rfl
  | cons work rest ih =>
    by_cases zero : env.exit (env.sh.expand work) = 0
    · simp [runWorks, upToFailure, allZero, zero, ih]
    · simp [runWorks, upToFailure, allZero, zero]

/-- The nested loops are one loop over all words of all nodes. -/
theorem runNodes_eq (env : Env) (t : Base σ) (gen : Path) (action : String) (nodes : List String) :
    runNodes env t gen action nodes = runWorks env (nodes.flatMap (works env t gen action)) := by
  induction nodes with
  | nil => rfl
  | cons node rest ih =>
    rw [runNodes, ih, List.flatMap_cons, runWorks_eq, runWorks_eq, runWorks_eq, List.map_append,
      upToFailure_append, allZero_append]
    cases allZero env.exit ((works env t gen action node).map env.sh.expand) with
    | true => simp
    | false => simp

/-- The executable files of a node's directory that are named as scripts are. -/
def named (t : Base σ) (gen : Int) (action node : String) : List (Nat × String) :=
  ((t.names [genName gen, "action", action, node]).flatMap fun name =>
    ((List.range 100).map fun prio => (prio, String.ofList (name.toList.drop 3))).filter fun a =>
      scriptName a.1 a.2 = name ∧ t.isExecutable (scriptPath gen action node a.1 a.2)).dedup

/-- The scripts of a node, by increasing priority and then by name. -/
def nodeScripts (t : Base σ) (gen : Int) (action node : String) : List (Nat × String) :=
  (named t gen action node).insertionSort fun a b => toLex a ≤ toLex b

theorem mem_nodeScripts {t : Base σ} : a ∈ nodeScripts t gen action node ↔
    a.1 ≤ 99 ∧ t.isExecutable (scriptPath gen action node a.1 a.2) = true := by
  simp only [nodeScripts, named, List.mem_insertionSort, List.mem_dedup, List.mem_filter,
    List.mem_flatMap, List.mem_map, List.mem_range, decide_eq_true_eq]
  constructor
  · rintro ⟨name, _, ⟨prio, small, rfl⟩, _, executable⟩
    exact ⟨Nat.le_of_lt_succ small, executable⟩
  · rintro ⟨small, executable⟩
    refine ⟨scriptName a.1 a.2, ?_, ⟨a.1, by omega, ?_⟩, rfl, executable⟩
    · obtain ⟨data, found⟩ := isExecutable_iff.mp executable
      rw [mem_names]
      simp only [scriptPath] at found
      simp [found]
    · simp [scriptName_toList]

theorem nodeScripts_sorted (t : Base σ) (gen : Int) (action node : String) :
    (nodeScripts t gen action node).Pairwise Precedes := by
  have ordered : (nodeScripts t gen action node).Pairwise fun a b => toLex a ≤ toLex b :=
    List.pairwise_insertionSort _ _
  have distinct : (nodeScripts t gen action node).Nodup :=
    (List.perm_insertionSort _ _).nodup_iff.mpr (List.nodup_dedup _)
  exact (ordered.and distinct).imp fun h => lt_of_le_of_ne h.1 fun same => h.2 (toLex.injective same)

/-- Only the entries of the node's own directory count. -/
theorem nodeScripts_congr {t u : Base σ}
    (same : ∀ name, t.get [genName gen, "action", action, node, name] =
      u.get [genName gen, "action", action, node, name]) :
    nodeScripts t gen action node = nodeScripts u gen action node := by
  refine (nodeScripts_sorted t gen action node).eq_of_mem_iff (nodeScripts_sorted u gen action node) ?_
  intro a
  rw [mem_nodeScripts, mem_nodeScripts, isExecutable, isExecutable, scriptPath, same]

/-- The files of those scripts. -/
def nodeFiles (t : Base σ) (gen : Int) (action node : String) : List Path :=
  (nodeScripts t gen action node).map fun a => scriptPath gen action node a.1 a.2

theorem mem_nodeFiles {t : Base σ} : q ∈ nodeFiles t gen action node ↔
    ∃ prio script, prio ≤ 99 ∧ t.isExecutable q = true ∧
      q = scriptPath gen action node prio script := by
  simp only [nodeFiles, List.mem_map, mem_nodeScripts]
  constructor
  · rintro ⟨a, ⟨small, executable⟩, rfl⟩
    exact ⟨a.1, a.2, small, executable, rfl⟩
  · rintro ⟨prio, script, small, executable, rfl⟩
    exact ⟨(prio, script), ⟨small, executable⟩, rfl⟩

theorem nodeFiles_nodup (t : Base σ) (gen : Int) (action node : String) :
    (nodeFiles t gen action node).Nodup := by
  have distinct := (nodeScripts_sorted t gen action node).imp fun {a b} h => h.ne
  refine List.Nodup.map_on ?_ (distinct.imp fun h same => h (congrArg toLex same))
  intro a first b second same
  obtain ⟨_, _, _, prios, scripts⟩ :=
    scriptPath_injective (mem_nodeScripts.mp first).1 (mem_nodeScripts.mp second).1 same
  exact Prod.ext prios scripts

/-- The executable files below an action are scripts of nodes, named as
`dagger_fopen` names them. -/
def Named (t : Base σ) (gen : Int) (action : String) : Prop :=
  ∀ q, t.isExecutable q = true → [genName gen, "action", action] <+: q →
    ∃ node prio script, prio ≤ 99 ∧ q = scriptPath gen action node prio script

/-- Sorting by bytes puts the files of a node into the order of its scripts. -/
theorem scripts_eq (env : Env) {t : Base σ} (tidy : Named t gen action) (node : String) :
    scripts env t [genName gen] action node = (nodeFiles t gen action node).map env.path := by
  have same : (t.executables [genName gen, "action", action, node]).Perm
      (nodeFiles t gen action node) := by
    rw [List.perm_ext_iff_of_nodup (t.executables_nodup _) (nodeFiles_nodup t gen action node)]
    intro q
    rw [mem_executables, mem_nodeFiles, ← isExecutable_iff]
    constructor
    · rintro ⟨below, executable⟩
      obtain ⟨owner, prio, script, small, rfl⟩ := tidy q executable
        ((List.prefix_append [genName gen, "action", action] [node]).trans below)
      simp only [scriptPath, List.cons_prefix_cons, true_and] at below
      exact ⟨prio, script, small, executable, by rw [below.1]⟩
    · rintro ⟨prio, script, small, executable, rfl⟩
      exact ⟨by simp [scriptPath], executable⟩
  have sorted : ((nodeFiles t gen action node).map env.path).Pairwise (· ≤ ·) := by
    rw [nodeFiles, List.map_map, List.pairwise_map]
    refine (nodeScripts_sorted t gen action node).imp_of_mem ?_
    intro a b first second precedes
    exact (scriptPath_lt env gen action node (mem_nodeScripts.mp first).1
      (mem_nodeScripts.mp second).1 precedes).le
  exact ((sort_perm _).trans (same.map env.path)).eq_of_pairwise' (sort_sorted _) sorted

/-- The files of one action in the order they are meant to run. -/
def phase (t : Base σ) (gen : Int) (action : String) (nodes : List String) : List Path :=
  ("@pre" :: nodes ++ ["@post"]).flatMap (nodeFiles t gen action)

/-- What the shell makes of the listed nodes in `for node in $order`. -/
def visited (sh : Shell) (nodes : List String) : List String := nodes.flatMap sh.expand

def NodesKept (sh : Shell) (nodes : List String) : Prop := ∀ node ∈ nodes, sh.expand node = [node]

theorem NodesKept.visited_eq (kept : NodesKept sh nodes) : visited sh nodes = nodes := by
  conv_rhs => rw [← List.flatMap_singleton' nodes]
  exact List.flatMap_congr kept

/-- What the unquoted path of a script becomes in the two places it is read. -/
def commandLines (env : Env) (q : Path) : List (List String) :=
  (env.sh.expand (env.path q)).map env.sh.expand

theorem orderWords_scripts [ToString σ] (env : Env) {t : Base σ} (proper : t.Proper)
    (tidy : Named t gen action) (listed : t.cat (orderFile t [genName gen] action) = nodes.map .line) :
    (orderWords env t [genName gen] action).flatMap (scripts env t [genName gen] action) =
      (phase t gen action (visited env.sh nodes)).map env.path := by
  have words : (nodes.map (Item.line (σ := σ))).flatMap (fun item => env.sh.expand item.text) =
      visited env.sh nodes := List.flatMap_map ..
  have optional (node : String) :
      (if t.isDir ([genName gen] ++ ["action", action] ++ [node]) then [node] else []).flatMap
        (scripts env t [genName gen] action) = scripts env t [genName gen] action node := by
    split
    · simp
    · rename_i missing
      have none : t.executables [genName gen, "action", action, node] = [] := by
        rw [List.eq_nil_iff_forall_not_mem]
        intro q member
        obtain ⟨below, data, found⟩ := mem_executables.mp member
        obtain ⟨owner, prio, script, _, rfl⟩ := tidy q (isExecutable_iff.mpr ⟨data, found⟩)
          ((List.prefix_append [genName gen, "action", action] [node]).trans below)
        have parent := proper [genName gen, "action", action, owner] (scriptName prio script)
          (by rw [scriptPath] at found; simp [found])
        simp only [scriptPath, List.cons_prefix_cons, true_and] at below
        rw [← below.1] at parent
        exact missing (t.isDir_of_get parent)
      simp [scripts, none, sort]
  rw [orderWords, listed, words, List.flatMap_append, List.flatMap_append, optional, optional,
    funext (scripts_eq env tidy)]
  simp [phase, List.map_flatMap]

/-- One action runs the words of its files, in their order. -/
theorem runNodes_phase [ToString σ] (env : Env) {t : Base σ} (proper : t.Proper)
    (tidy : Named t gen action) (listed : t.cat (orderFile t [genName gen] action) = nodes.map .line) :
    runNodes env t [genName gen] action (orderWords env t [genName gen] action) =
      (upToFailure env.exit ((phase t gen action (visited env.sh nodes)).flatMap (commandLines env)),
       allZero env.exit ((phase t gen action (visited env.sh nodes)).flatMap (commandLines env))) := by
  have words : ((orderWords env t [genName gen] action).flatMap
      (works env t [genName gen] action)).map env.sh.expand =
      (phase t gen action (visited env.sh nodes)).flatMap (commandLines env) := by
    have paths := orderWords_scripts env proper tidy listed
    have split : works env t [genName gen] action =
      fun node => (scripts env t [genName gen] action node).flatMap env.sh.expand := rfl
    rw [split, ← List.flatMap_assoc, paths, List.map_flatMap, List.flatMap_map]
    rfl
  rw [runNodes_eq, runWorks_eq, words]

end Dagger
