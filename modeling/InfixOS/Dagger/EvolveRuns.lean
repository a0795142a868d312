import InfixOS.Dagger.Evolve

/-! When evolve does what it is for. The tool reads nodes and paths unquoted and puts
`@pre` and `@post` around the listed nodes without looking whether they are
listed; everything else about the scripts and their order is right. -/
namespace Dagger
open Posix Posix.FileTree

variable {σ : Type}

theorem catWord_num [ToString σ] {t : Base σ} (content : t.cat p = [.num n]) :
    catWord t p = genName n := by
  simp [catWord, content, Item.text, genName]

theorem catWord_empty [ToString σ] {t : Base σ} (content : t.cat p = []) : catWord t p = "" := by
  simp [catWord, content]

theorem not_isOrderFile (short : q.length ≤ 1) : ¬isOrderFile [gen] q := by
  rintro (rfl | rfl)
  · simp at short
  · simp at short

/-- A generation whose action can be run: its order files are or can be
written, the order file of the action lists distinct nodes, and its scripts are
named as the library names them. -/
structure Ready (enum : Enumeration) (t : Base σ) (gen : Int) (action : String)
    (nodes : List String) : Prop where
  bottom : t.Writable [genName gen, "bottom-up-order"]
  top : t.Writable [genName gen, "top-down-order"]
  listed : (generateOrder enum t [genName gen]).1.cat
    (orderFile (generateOrder enum t [genName gen]).1 [genName gen] action) = nodes.map .line
  distinct : nodes.Nodup
  tidy : Named t gen action

namespace Ready
variable {enum : Enumeration} {t : Base σ}

theorem dir (ready : Ready enum t gen action nodes) (proper : t.Proper) :
    t.get [genName gen] = some .dir := by
  rcases ready.bottom with ⟨_, parent⟩ | ⟨_, _, present⟩
  · exact parent
  · exact proper [genName gen] "bottom-up-order" (by simp [present])

theorem frame (ready : Ready enum t gen action nodes) (other : ¬isOrderFile [genName gen] q) :
    (generateOrder enum t [genName gen]).1.get q = t.get q :=
  generateOrder_frame enum t [genName gen] ready.bottom ready.top other

theorem proper (ready : Ready enum t gen action nodes) (proper : t.Proper) :
    (generateOrder enum t [genName gen]).1.Proper :=
  (generateOrder_writes enum t [genName gen] ready.bottom ready.top).proper proper

theorem keepsNamed (ready : Ready enum t gen action nodes) (tidy : Named t gen' action') :
    Named (generateOrder enum t [genName gen]).1 gen' action' := by
  intro q executable below
  refine tidy q ?_ below
  rw [isExecutable, ready.frame] at executable
  · exact executable
  · rintro (rfl | rfl)
    · simp at below
    · simp at below

theorem keepsFiles (ready : Ready enum t gen action nodes) (node : String) :
    nodeFiles (generateOrder enum t [genName gen]).1 gen' action' node =
      nodeFiles t gen' action' node := by
  rw [nodeFiles, nodeFiles, nodeScripts_congr]
  intro name
  exact ready.frame (by simp [isOrderFile])

theorem keepsPhase (ready : Ready enum t gen action nodes) (listed : List String) :
    phase (generateOrder enum t [genName gen]).1 gen' action' listed = phase t gen' action' listed := by
  rw [phase, phase, funext ready.keepsFiles]

/-- What running one action amounts to. -/
theorem actionExec_eq [ToString σ] (env : Env) (ready : Ready env.enum t gen action nodes) (proper : t.Proper) :
    actionExec env t action [genName gen] =
      ⟨(generateOrder env.enum t [genName gen]).1,
        allZero env.exit ((phase t gen action (visited env.sh nodes)).flatMap (commandLines env)),
        upToFailure env.exit ((phase t gen action (visited env.sh nodes)).flatMap (commandLines env))⟩ := by
  have done := generateOrder_ok env.enum t [genName gen] ready.bottom ready.top
  have run := runNodes_phase env (ready.proper proper) (ready.keepsNamed ready.tidy) ready.listed
  rw [ready.keepsPhase] at run
  rw [actionExec]
  generalize generateOrder env.enum t [genName gen] = r at *
  obtain ⟨u, ok⟩ := r
  simp only at done run ⊢
  subst done
  simp only [run]

end Ready

/-- The tree the init action finds: the exit action has seen to the order
files of its own generation. -/
def afterExit (enum : Enumeration) (t : Base σ) : Option Int → Base σ
  | none => t
  | some gen => (generateOrder enum t [genName gen]).1

/-- A base directory with a transaction that can be evolved, from the
generation `c` if there is one to the generation `n`. -/
structure Evolvable (enum : Enumeration) (t : Base σ) (c : Option Int) (n : Int)
    (exitNodes initNodes : List String) : Prop where
  proper : t.Proper
  absent : c = none → t.get ["current"] = none
  current : ∀ gen, c = some gen → ∃ x, t.get ["current"] = some (.file [.num gen] x)
  next : ∃ x, t.get ["next"] = some (.file [.num n] x)
  different : c ≠ some n
  exit : ∀ gen, c = some gen → Ready enum t gen "exit" exitNodes
  init : Ready enum (afterExit enum t c) n "init" initNodes

/-- The scripts an evolve is to run, in order. -/
def expected (t : Base σ) (c : Option Int) (n : Int) (exitNodes initNodes : List String) : List Path :=
  (match c with
    | none => []
    | some gen => phase t gen "exit" exitNodes) ++ phase t n "init" initNodes

theorem expected_visited {t : Base σ} {sh : Shell} (exitKept : c ≠ none → NodesKept sh exitNodes)
    (initKept : NodesKept sh initNodes) :
    expected t c n (visited sh exitNodes) (visited sh initNodes) = expected t c n exitNodes initNodes := by
  cases c with
  | none => rw [expected, expected, initKept.visited_eq]
  | some gen => rw [expected, expected, initKept.visited_eq, (exitKept (by simp)).visited_eq]

namespace Evolvable
variable {enum : Enumeration} {t : Base σ}

theorem frame (ready : Evolvable enum t c n exitNodes initNodes) (q : Path)
    (short : q.length ≤ 1) : (afterExit enum t c).get q = t.get q := by
  cases c with
  | none => rfl
  | some gen => exact (ready.exit gen rfl).frame (not_isOrderFile short)

theorem afterExit_proper (ready : Evolvable enum t c n exitNodes initNodes) :
    (afterExit enum t c).Proper := by
  cases c with
  | none => exact ready.proper
  | some gen => exact (ready.exit gen rfl).proper ready.proper

theorem afterExit_phase (ready : Evolvable enum t c n exitNodes initNodes) (nodes : List String) :
    phase (afterExit enum t c) gen action nodes = phase t gen action nodes := by
  cases c with
  | none => rfl
  | some old => exact (ready.exit old rfl).keepsPhase nodes

theorem root (ready : Evolvable enum t c n exitNodes initNodes) : t.get [] = some .dir := by
  obtain ⟨x, found⟩ := ready.next
  exact ready.proper [] "next" (by simp [found])

theorem current_cat (ready : Evolvable enum t c n exitNodes initNodes) :
    t.cat ["current"] = c.toList.map .num := by
  cases c with
  | none => exact t.cat_missing (ready.absent rfl)
  | some gen =>
    obtain ⟨x, found⟩ := ready.current gen rfl
    exact t.cat_file found

theorem next_cat (ready : Evolvable enum t c n exitNodes initNodes) : t.cat ["next"] = [.num n] := by
  obtain ⟨x, found⟩ := ready.next
  exact t.cat_file found

theorem next_dir (ready : Evolvable enum t c n exitNodes initNodes) :
    t.get [genName n] = some .dir := by
  rw [← ready.frame _ (by simp)]
  exact ready.init.dir ready.afterExit_proper

/-- What the exit phase amounts to. -/
theorem exitPhase_eq [ToString σ] (env : Env) (ready : Evolvable env.enum t c n exitNodes initNodes) :
    exitPhase env t (catWord t ["current"]) =
      ⟨afterExit env.enum t c,
        allZero env.exit ((c.toList.flatMap fun gen => phase t gen "exit" (visited env.sh exitNodes)).flatMap
          (commandLines env)),
        upToFailure env.exit ((c.toList.flatMap fun gen => phase t gen "exit" (visited env.sh exitNodes)).flatMap
          (commandLines env))⟩ := by
  have content := ready.current_cat
  cases c with
  | none => simp [exitPhase, catWord_empty content, afterExit, allZero, upToFailure]
  | some gen =>
    rw [catWord_num content, exitPhase, if_pos (genName_ne_empty gen),
      (ready.exit gen rfl).actionExec_eq env ready.proper]
    simp [afterExit]

/-- The lines of one evolve, and what becomes of the two files. -/
theorem doEvolve_eq [ToString σ] (env : Env) (ready : Evolvable env.enum t c n exitNodes initNodes) :
    let lines := (expected t c n (visited env.sh exitNodes) (visited env.sh initNodes)).flatMap (commandLines env)
    let u := (doEvolve env t).tree
    (doEvolve env t).trace = upToFailure env.exit lines ∧
    (allZero env.exit lines = true → u.get ["current"] = t.get ["next"] ∧ u.get ["next"] = none) ∧
    (allZero env.exit lines = false →
      u.get ["current"] = t.get ["current"] ∧ u.get ["next"] = t.get ["next"]) := by
  intro lines
  have initEq := ready.init.actionExec_eq env ready.afterExit_proper
  rw [ready.afterExit_phase] at initEq
  have current : ¬(catWord t ["current"] ≠ "" ∧ t.isDir [catWord t ["current"]] = false) := by
    have content := ready.current_cat
    cases c with
    | none => simp [catWord_empty content]
    | some gen =>
      rw [catWord_num content, t.isDir_of_get ((ready.exit gen rfl).dir ready.proper)]
      simp
  have next : ¬(genName n = "" ∨ t.isDir [genName n] = false) := by
    simp [genName_ne_empty, t.isDir_of_get ready.next_dir]
  have keep (q : Path) (short : q.length ≤ 1) :
      (generateOrder env.enum (afterExit env.enum t c) [genName n]).1.get q = t.get q := by
    rw [ready.init.frame (not_isOrderFile short), ready.frame q short]
  simp only [doEvolve, if_neg current, catWord_num ready.next_cat, if_neg next,
    ready.exitPhase_eq env, initEq]
  have split : lines = (c.toList.flatMap fun gen => phase t gen "exit" (visited env.sh exitNodes)).flatMap
      (commandLines env) ++ (phase t n "init" (visited env.sh initNodes)).flatMap (commandLines env) := by
    cases c with
    | none => simp [lines, expected]
    | some gen => simp [lines, expected, List.flatMap_append]
  rw [split, allZero_append, upToFailure_append]
  generalize (c.toList.flatMap fun gen => phase t gen "exit" (visited env.sh exitNodes)).flatMap
    (commandLines env) = exits
  generalize (phase t n "init" (visited env.sh initNodes)).flatMap (commandLines env) = inits
  cases exitOk : allZero env.exit exits with
  | false =>
    simp [ready.frame ["current"] (by simp), ready.frame ["next"] (by simp)]
  | true =>
    cases initOk : allZero env.exit inits with
    | false => simp [keep ["current"] (by simp), keep ["next"] (by simp)]
    | true =>
      obtain ⟨x, found⟩ := ready.next
      have apart : Apart ["next"] ["current"] := ⟨by decide, by decide⟩
      have writable : (generateOrder env.enum (afterExit env.enum t c) [genName n]).1.Writable
          ["current"] := by
        cases c with
        | none =>
          exact .inl ⟨by rw [keep _ (by simp), ready.absent rfl], by
            rw [keep _ (by simp)]; exact ready.root⟩
        | some gen =>
          obtain ⟨y, present⟩ := ready.current gen rfl
          exact .inr ⟨_, y, by rw [keep _ (by simp), present]⟩
      have moved := mv_file _ (by rw [keep _ (by simp), found]) writable apart
      have target := get_rename_target
        (generateOrder env.enum (afterExit env.enum t c) [genName n]).1 apart []
      have source := get_rename_source
        (generateOrder env.enum (afterExit env.enum t c) [genName n]).1 apart (q := ["next"])
        (List.prefix_refl _)
      simp only [List.append_nil] at target
      simp [moved, target, source, keep ["next"] (by simp)]

end Evolvable

theorem nodeFiles_disjoint_iff (t : Base σ) (gen : Int) (action a b : String) :
    (nodeFiles t gen action a).Disjoint (nodeFiles t gen action b) ↔
      (a = b → nodeFiles t gen action a = []) := by
  constructor
  · rintro disjoint rfl
    rw [List.eq_nil_iff_forall_not_mem]
    exact fun q member => disjoint member member
  · intro empty q first second
    obtain ⟨prio, script, small, _, rfl⟩ := mem_nodeFiles.mp first
    obtain ⟨prio', script', small', _, same⟩ := mem_nodeFiles.mp second
    obtain ⟨_, _, nodes, _⟩ := scriptPath_injective small small' same
    simp [empty nodes] at first

/-- Files are listed twice exactly when a listed node takes the name of one of
the two that are run around all nodes. -/
theorem phase_nodup_iff (t : Base σ) (gen : Int) (action : String) (distinct : nodes.Nodup) :
    (phase t gen action nodes).Nodup ↔
      ∀ reserved ∈ ["@pre", "@post"], reserved ∈ nodes → nodeFiles t gen action reserved = [] := by
  have apart : nodes.Pairwise (Function.onFun List.Disjoint (nodeFiles t gen action)) :=
    distinct.imp fun {a b} different =>
      (nodeFiles_disjoint_iff t gen action a b).mpr fun same => absurd same different
  have reserved : (∀ r ∈ ["@pre", "@post"], r ∈ nodes → nodeFiles t gen action r = []) ↔
      ("@pre" ∈ nodes → nodeFiles t gen action "@pre" = []) ∧
      ("@post" ∈ nodes → nodeFiles t gen action "@post" = []) := by simp
  simp only [reserved, phase, List.nodup_flatMap, List.cons_append, List.pairwise_cons,
    List.pairwise_append, List.mem_append, List.mem_singleton, Function.onFun,
    nodeFiles_disjoint_iff, nodeFiles_nodup]
  constructor
  · rintro ⟨_, before, _, _, after⟩
    exact ⟨fun listed => before _ (.inl listed) rfl, fun listed => after _ listed _ rfl rfl⟩
  · rintro ⟨before, after⟩
    refine ⟨by simp, ?_, apart, by simp, ?_⟩
    · rintro node (listed | rfl) same
      · exact before (same ▸ listed)
      · exact absurd same (by decide)
    · rintro node listed last rfl rfl
      exact after listed

theorem phase_action {t : Base σ} (member : q ∈ phase t gen action nodes) :
    ∃ node name, q = [genName gen, "action", action, node, name] := by
  obtain ⟨node, _, file⟩ := List.mem_flatMap.mp member
  obtain ⟨prio, script, _, _, rfl⟩ := mem_nodeFiles.mp file
  exact ⟨node, _, rfl⟩

/-- No listed node that has scripts takes the name of one of the two around all nodes. -/
def Unreserved (t : Base σ) (c : Option Int) (n : Int) (exitNodes initNodes : List String) : Prop :=
  ∀ reserved ∈ ["@pre", "@post"],
    (∀ gen, c = some gen → reserved ∈ exitNodes → nodeFiles t gen "exit" reserved = []) ∧
    (reserved ∈ initNodes → nodeFiles t n "init" reserved = [])

theorem expected_nodup_iff (ready : Evolvable enum t c n exitNodes initNodes) :
    (expected t c n exitNodes initNodes).Nodup ↔ Unreserved t c n exitNodes initNodes := by
  unfold Unreserved
  have init := phase_nodup_iff t n "init" ready.init.distinct
  cases c with
  | none => simpa [expected] using init
  | some gen =>
    have exit := phase_nodup_iff t gen "exit" (ready.exit gen rfl).distinct
    have apart : (phase t gen "exit" exitNodes).Disjoint (phase t n "init" initNodes) := by
      intro q first second
      obtain ⟨_, _, rfl⟩ := phase_action first
      obtain ⟨_, _, same⟩ := phase_action second
      simp at same
    simp only [expected, List.nodup_append', exit, init, apart, and_true, Option.some.injEq,
      forall_eq']
    exact ⟨fun h reserved member => ⟨h.1 reserved member, h.2 reserved member⟩,
      fun h => ⟨fun r m => (h r m).1, fun r m => (h r m).2⟩⟩

/-- The path stays one word in both unquoted places the tool reads it. -/
def OneWord (sh : Shell) (word : String) : Prop := (sh.expand word).map sh.expand = [[word]]

/-- Evolve runs the given scripts, each once and in order, up to the first that
fails, and replaces `current` by `next` if none does. -/
structure RunsRight [ToString σ] (env : Env) (t : Base σ) (scripts : List Path) : Prop where
  once : scripts.Nodup
  trace : ∀ exit, (doEvolve { env with exit } t).trace =
    upToFailure exit (scripts.map fun q => [env.path q])
  commit : ∀ exit, (doEvolve { env with exit } t).tree.get ["current"] = t.get ["next"] ∧
      (doEvolve { env with exit } t).tree.get ["next"] = none ↔
    ∀ q ∈ scripts, exit [env.path q] = 0
  keep : ∀ exit, (∃ q ∈ scripts, exit [env.path q] ≠ 0) →
    (doEvolve { env with exit } t).tree.get ["current"] = t.get ["current"] ∧
    (doEvolve { env with exit } t).tree.get ["next"] = t.get ["next"]

theorem commandLines_nonempty (env : Env) (nonempty : q ≠ []) : commandLines env q ≠ [] := by
  rw [commandLines, Ne, List.map_eq_nil_iff]
  refine expand_nonempty env.sh (c := '/') ?_ rfl
  rw [← List.dropLast_append_getLast nonempty, path_snoc]
  simp

/-- Expansion reproduces the lines of all scripts only if each is one word. -/
theorem commandLines_eq_iff (env : Env) {files : List Path} (nonempty : ∀ q ∈ files, q ≠ []) :
    files.flatMap (commandLines env) = files.map (fun q => [env.path q]) ↔
      ∀ q ∈ files, OneWord env.sh (env.path q) := by
  constructor
  · intro same
    exact flatMap_singletons (fun q member => commandLines_nonempty env (nonempty q member)) same
  · intro each
    rw [← List.flatMap_singleton' (files.map _), List.flatMap_map]
    exact List.flatMap_congr each

theorem expected_nonempty {t : Base σ} (member : q ∈ expected t c n exitNodes initNodes) : q ≠ [] := by
  rcases List.mem_append.mp member with exit | init
  · cases c with
    | none => simp at exit
    | some gen =>
      obtain ⟨_, _, rfl⟩ := phase_action exit
      simp
  · obtain ⟨_, _, rfl⟩ := phase_action init
    simp

/-- The words that the shell makes of the listed nodes and of the paths of their scripts
are the paths of the scripts to be run. -/
def WordsRight (env : Env) (t : Base σ) (c : Option Int) (n : Int) (exitNodes initNodes : List String) : Prop :=
  (expected t c n (visited env.sh exitNodes) (visited env.sh initNodes)).flatMap (commandLines env) =
    (expected t c n exitNodes initNodes).map fun q => [env.path q]

/-- Where the shell leaves the listed nodes as they are, every path has to be one word. -/
theorem wordsRight_iff (env : Env) (t : Base σ) (n : Int) (exitKept : c ≠ none → NodesKept env.sh exitNodes)
    (initKept : NodesKept env.sh initNodes) : WordsRight env t c n exitNodes initNodes ↔
      ∀ q ∈ expected t c n exitNodes initNodes, OneWord env.sh (env.path q) := by
  rw [WordsRight, expected_visited exitKept initKept]
  exact commandLines_eq_iff env fun q member => expected_nonempty member

/-- Evolve is right exactly when the words that the shell makes of nodes and paths are, and
no listed node with scripts is called `@pre` or `@post`. -/
theorem doEvolve_right_iff [ToString σ] (env : Env) (t : Base σ) (c : Option Int) (n : Int)
    (exitNodes initNodes : List String) (ready : Evolvable env.enum t c n exitNodes initNodes) :
    (RunsRight env t (expected t c n exitNodes initNodes) ↔
      WordsRight env t c n exitNodes initNodes ∧ Unreserved t c n exitNodes initNodes) ∧
    ((c ≠ none → NodesKept env.sh exitNodes) → NodesKept env.sh initNodes →
      (WordsRight env t c n exitNodes initNodes ↔
        ∀ q ∈ expected t c n exitNodes initNodes, OneWord env.sh (env.path q))) := by
  refine ⟨?_, wordsRight_iff env t n⟩
  rw [← expected_nodup_iff ready]
  have run (exit : List String → Nat) := ready.doEvolve_eq { env with exit }
  have split (exit : List String → Nat) : commandLines { env with exit } = commandLines env := rfl
  simp only [split] at run
  constructor
  · intro right
    refine ⟨?_, right.once⟩
    -- With every script succeeding the trace shows all lines.
    have all := (run fun _ => 0).1.symm.trans (right.trace fun _ => 0)
    rw [upToFailure_allZero (by simp [allZero]), upToFailure_allZero (by simp [allZero])] at all
    have lines := congrArg (List.map Prod.fst) all
    simpa [WordsRight, List.map_map, Function.comp_def] using lines
  · rintro ⟨words, once⟩
    rw [WordsRight] at words
    rw [words] at run
    have zero (exit : List String → Nat) :
        allZero exit ((expected t c n exitNodes initNodes).map fun q => [env.path q]) = true ↔
          ∀ q ∈ expected t c n exitNodes initNodes, exit [env.path q] = 0 := by
      simp [allZero]
    obtain ⟨x, found⟩ := ready.next
    refine ⟨once, fun exit => (run exit).1, fun exit => ⟨?_, ?_⟩, ?_⟩
    · intro replaced
      by_contra failed
      rw [← zero, Bool.not_eq_true] at failed
      have kept := ((run exit).2.2 failed).2
      simp [kept, found] at replaced
    · intro succeeded
      exact (run exit).2.1 ((zero exit).mpr succeeded)
    · rintro exit ⟨q, member, failed⟩
      apply (run exit).2.2
      rw [← Bool.not_eq_true, zero]
      exact fun all => failed (all q member)

/-- A first transaction on an empty base directory, with one node and one
script, up to the point where the tool is called. -/
def firstTransaction (script : String) : Base String :=
  let claimed := daggerClaim (fun _ => false) "/run/net" .zero .empty
  let t := (daggerAddNode claimed.handle claimed.tree "eth0").1
  let t := (daggerFopenNext claimed.handle t "init" "eth0" 50 script).1
  announce claimed.handle t

/-- No pattern has a match, and commands that are not there exit with status 127. -/
def plainEnv (present : List (List String)) : Env :=
  ⟨.bare, "/run/net", .listed, fun argv => if present.contains argv then 0 else 127⟩

private theorem firstTransaction_facts : ∀ script ∈ ["init.ip", "a b.sh"],
    let t := firstTransaction script
    let u := (generateOrder .listed t ["0"]).1
    (∀ q ∈ t.paths, q = [] ∨ t.get q.dropLast = some .dir) ∧
    t.get ["current"] = none ∧ t.get ["next"] = some (.file [.num 0] false) ∧
    t.get ["0"] = some .dir ∧ t.get ["0", "bottom-up-order"] = none ∧
    t.get ["0", "top-down-order"] = none ∧
    u.cat (orderFile u ["0"] "init") = [.line "eth0"] ∧
    t.executables ["0", "action", "init"] = [scriptPath 0 "init" "eth0" 50 script] ∧
    expected t none 0 [] ["eth0"] = [scriptPath 0 "init" "eth0" 50 script] := by
  decide +kernel

theorem firstTransaction_evolvable (script : String) (member : script ∈ ["init.ip", "a b.sh"]) :
    Evolvable .listed (firstTransaction script) none 0 [] ["eth0"] := by
  obtain ⟨proper, current, next, dir, bottom, top, listed, executable, _⟩ :=
    firstTransaction_facts script member
  refine ⟨proper_of_paths proper, fun _ => current, by simp, ⟨_, next⟩, by simp, by simp, ?_⟩
  refine ⟨.inl ⟨bottom, dir⟩, .inl ⟨top, dir⟩, listed, by decide, ?_⟩
  intro q runs below
  have file : q ∈ (firstTransaction script).executables ["0", "action", "init"] :=
    mem_executables.mpr ⟨below, isExecutable_iff.mp runs⟩
  rw [executable, List.mem_singleton] at file
  exact ⟨"eth0", 50, script, by decide, file⟩

/-- An ordinary script name meets the condition. -/
theorem doEvolve_right_plain : Evolvable .listed (firstTransaction "init.ip") none 0 [] ["eth0"] ∧
    RunsRight (plainEnv []) (firstTransaction "init.ip")
      (expected (firstTransaction "init.ip") none 0 [] ["eth0"]) := by
  have ready := firstTransaction_evolvable "init.ip" (by decide)
  have kept : NodesKept (plainEnv []).sh ["eth0"] := by
    unfold NodesKept
    decide +kernel
  obtain ⟨right, readable⟩ := doEvolve_right_iff (plainEnv []) _ none 0 [] ["eth0"] ready
  refine ⟨ready, right.mpr ⟨(readable (by simp) kept).mpr ?_, by simp [Unreserved]⟩⟩
  obtain ⟨_, _, _, _, _, _, _, _, files⟩ := firstTransaction_facts "init.ip" (by decide)
  rw [files]
  simp only [List.forall_mem_singleton]
  unfold OneWord
  decide +kernel

/-- A blank in a script name makes the tool run the part before it. -/
theorem doEvolve_splits_name :
    Evolvable .listed (firstTransaction "a b.sh") none 0 [] ["eth0"] ∧
    ¬RunsRight (plainEnv [["/run/net/0/action/init/eth0/50-a b.sh"]]) (firstTransaction "a b.sh")
      (expected (firstTransaction "a b.sh") none 0 [] ["eth0"]) := by
  refine ⟨firstTransaction_evolvable "a b.sh" (by decide), fun right => ?_⟩
  have trace := right.trace
    (plainEnv [["/run/net/0/action/init/eth0/50-a b.sh"]]).exit
  exact absurd trace (by decide +kernel)

end Dagger
