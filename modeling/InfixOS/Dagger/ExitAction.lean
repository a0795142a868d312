import InfixOS.Dagger.Consistency

/-! The exit action of the current generation. Its scripts come from the
transaction that follows, its order from the one that made the generation. -/
namespace Dagger
open Posix Posix.FileTree

variable {σ : Type}

/-- The names in the path of a script are words to the tool. -/
def Worded (q : Path) : Prop :=
  ∀ (m : Int) action v s, q = [genName m, "action", action, v, s] → ∀ c ∈ [action, v, s], Literal c

theorem Worded.of_length (short : q.length ≠ 5) : Worded q := by
  rintro m action v s rfl
  simp at short

/-- What the next exit action will find: an order with all nodes of the current
generation and nothing but scripts, all of them words; the generation in preparation has
none of its own yet. -/
structure Leaving (k : Nat) (t : Base σ) : Prop where
  order : 0 < k → ∃ (nodes : List String) (x : Bool),
    t.get [genName (k - 1), "top-down-order"] = some (.file (nodes.map .line) x) ∧ nodes.Nodup ∧
    (∀ v ∈ nodes, Literal v ∧ v ≠ "") ∧ ∀ v, t.get [genName (k - 1), "dag", v] = some .dir → v ∈ nodes
  tidy : 0 < k → Named t (k - 1) "exit"
  unused : t.get (genName k :: "action" :: "exit" :: r) = none
  worded : (t.get q).isSome → Worded q

theorem Leaving.empty : Leaving 0 (.empty : Base σ) where
  order := by simp
  tidy := by simp
  unused := by simp
  worded := by simp

/-- A write that does not get in the way. -/
structure Unrelated (k : Nat) (q : Path) (n : Node (Item σ)) : Prop where
  order : q ≠ [genName (k - 1), "top-down-order"]
  dag : q ≠ [genName (k - 1), "dag", v]
  script : n = .file data true → [genName (k - 1), "action", "exit"] <+: q →
    ∃ node prio script, prio ≤ 99 ∧ q = scriptPath (k - 1) "exit" node prio script
  unused : q ≠ genName k :: "action" :: "exit" :: r
  worded : Worded q

theorem Leaving.put {k : Nat} {t : Base σ} (leaving : Leaving k t) (apart : Unrelated k q n) :
    Leaving k (t.put q n) where
  order := by
    intro positive
    obtain ⟨nodes, x, found, distinct, literal, all⟩ := leaving.order positive
    refine ⟨nodes, x, ?_, distinct, literal, fun v dir => all v ?_⟩
    · rw [get_put_of_ne _ _ apart.order.symm, found]
    · rwa [get_put_of_ne _ _ apart.dag.symm] at dir
  tidy := by
    intro positive p executable below
    obtain ⟨data, found⟩ := isExecutable_iff.mp executable
    rw [get_put] at found
    split at found
    · rename_i same
      subst same
      exact apart.script (Option.some.inj found) below
    · exact leaving.tidy positive p (isExecutable_iff.mpr ⟨data, found⟩) below
  unused := by
    intro r
    rw [get_put_of_ne _ _ apart.unused.symm, leaving.unused]
  worded := by
    intro p present
    rw [get_put] at present
    split at present
    · rename_i same
      exact same ▸ apart.worded
    · exact leaving.worded present

theorem Leaving.writes {k : Nat} {t u : Base σ} (leaving : Leaving k t) (wrote : Writes allowed t u)
    (apart : ∀ q n, allowed q n → Unrelated k q n) : Leaving k u :=
  wrote.keeps (fun _ q n before _ fine => before.put (apart q n fine)) leaving

/-- The lock file is not part of it. -/
theorem Leaving.congr {k : Nat} {t u : Base σ} (leaving : Leaving k t)
    (same : ∀ q, q ≠ ["next"] → u.get q = t.get q) : Leaving k u where
  order := by
    intro positive
    obtain ⟨nodes, x, found, distinct, literal, all⟩ := leaving.order positive
    refine ⟨nodes, x, by rw [same _ (by simp), found], distinct, literal, fun v dir => all v ?_⟩
    rwa [same _ (by simp)] at dir
  tidy := by
    intro positive q executable below
    refine leaving.tidy positive q ?_ below
    rwa [isExecutable, same] at executable
    rintro rfl
    simp at below
  unused := by
    intro r
    rw [same _ (by simp), leaving.unused]
  worded := by
    intro q present
    by_cases lock : q = ["next"]
    · exact .of_length (by simp [lock])
    · exact leaving.worded (same q lock ▸ present)

theorem ClaimWrite.unrelated {k : Nat} (write : ClaimWrite k q (n : Node (Item σ))) : Unrelated k q n := by
  have other : (k : Int) - 1 ≠ k := by omega
  have short {p : Path} (above : q <+: p) (few : p.length ≤ 4) : Worded q :=
    .of_length (by have bound := above.length_le; omega)
  rcases write with ⟨rfl, rfl⟩ | ⟨rfl, rfl⟩ | ⟨_, ⟨above, rfl⟩ | ⟨rfl, rfl⟩⟩ | ⟨above, rfl⟩ | ⟨rfl, rfl⟩
  · exact ⟨by simp, by simp, by simp, by simp, .of_length (by simp)⟩
  · exact ⟨by simp, by simp, by simp, by simp, .of_length (by simp)⟩
  · refine ⟨?_, ?_, by simp, ?_, short above (by simp)⟩
    · rintro rfl
      simp at above
    · rintro v rfl
      simp at above
    · rintro r rfl
      rw [List.cons_prefix_cons, genName_inj] at above
      omega
  · refine ⟨by simp [exitOrder], by simp [exitOrder], by simp, fun {r} same => ?_, .of_length (by simp [exitOrder])⟩
    simp only [exitOrder, List.cons.injEq, genName_inj] at same
    omega
  · refine ⟨?_, ?_, by simp, ?_, above.elim (short · (by simp)) (short · (by simp))⟩
    · rintro rfl
      simp [other] at above
    · rintro v rfl
      simp [other] at above
    · rintro r rfl
      simp at above
  · exact ⟨by simp, by simp, by simp, by simp, .of_length (by simp)⟩

theorem OpWrite.unrelated {k : Nat} (write : OpWrite k q (n : Node (Item σ))) (worded : Worded q) :
    Unrelated k q n := by
  have other : (k : Int) - 1 ≠ k := by omega
  cases write with
  | node v above =>
    refine ⟨?_, ?_, by simp, ?_, worded⟩
    · rintro rfl
      simp at above
    · rintro w rfl
      simp [other] at above
    · rintro r rfl
      simp at above
  | initDir v above =>
    refine ⟨?_, ?_, by simp, ?_, worded⟩
    · rintro rfl
      simp at above
    · rintro w rfl
      simp at above
    · rintro r rfl
      simp at above
  | exitDir v positive above =>
    refine ⟨?_, ?_, by simp, ?_, worded⟩
    · rintro rfl
      simp at above
    · rintro w rfl
      simp at above
    · rintro r rfl
      simp [other.symm] at above
  | dep v c => exact ⟨by simp, by simp, by simp, by simp, worded⟩
  | initScript v s small data x =>
    exact ⟨by simp [scriptPath], by simp [scriptPath], fun _ below => by simp [scriptPath] at below,
      by simp [scriptPath], worded⟩
  | exitScript v s positive small data x =>
    exact ⟨by simp [scriptPath], by simp [scriptPath], fun _ _ => ⟨v.text, _, s.text, small, rfl⟩,
      by simp [scriptPath, other], worded⟩
  | skip v => exact ⟨by simp, by simp, by simp, by simp, worded⟩

/-- The order of a generation is written when it becomes the current one. -/
theorem Leaving.evolved {k : Nat} {t : Base σ} (leaving : Leaving k t) (store : Store k t)
    (laid : Laid k t) (enum : Enumeration) :
    Leaving (k + 1) ((ordered enum t k).rename ["next"] ["current"]) := by
  have inside (m : Int) (r : Path) : ((ordered enum t k).rename ["next"] ["current"]).get
      (genName m :: r) = (ordered enum t k).get (genName m :: r) := by
    apply get_rename_frame _ ⟨by decide, by decide⟩
    · simp [(genName_ne_next m).symm]
    · simp [(genName_ne_current m).symm]
  have cast : ((k + 1 : Nat) : Int) - 1 = k := by omega
  obtain ⟨_, _, x, top⟩ := generateOrder_content enum t [genName k]
    (laid.bottom_writable store.proper) (laid.top_writable store.proper) laid.stale
  have ready := laid.ready store enum
  constructor
  case order =>
    intro _
    refine ⟨(dagNodes enum t k).reverse, x, ?_, ?_, ?_, ?_⟩
    · rw [cast, inside]
      exact top
    · exact List.nodup_reverse.mpr ready.distinct
    · exact fun v member => store.dagNodes_word enum (List.mem_reverse.mp member)
    · intro v dir
      rw [cast, inside, ordered_frame store laid enum (by simp [isOrderFile])] at dir
      refine List.mem_reverse.mpr (Graph.mem_unseen.mpr ⟨findDepth_lists enum t ?_ dir, by simp⟩)
      exact store.proper [genName k, "dag"] v (by simp [dir])
  case tidy =>
    rintro _ q executable ⟨r, rfl⟩
    obtain ⟨data, found⟩ := isExecutable_iff.mp executable
    rw [cast, List.cons_append, inside, ordered_frame store laid enum (by simp [isOrderFile]),
      List.cons_append, List.cons_append, leaving.unused] at found
    simp at found
  case unused =>
    intro r
    rw [inside, ordered_frame store laid enum (by simp [isOrderFile])]
    exact store.later (by omega)
  case worded =>
    rintro q present m action v s rfl
    rw [inside, ordered_frame store laid enum (by simp [isOrderFile])] at present
    exact leaving.worded present m action v s rfl

section Exit
variable {k : Nat} {t : Base σ}

/-- The exit action lists the nodes the generation had when it was made. -/
theorem Leaving.ready (leaving : Leaving k t) (store : Store k t) (laid : Laid k t) (positive : 0 < k)
    (enum : Enumeration) : ∃ nodes, Ready enum t (k - 1) "exit" nodes ∧ (∀ v ∈ nodes, Literal v ∧ v ≠ "") ∧
      ∀ v, t.get [genName (k - 1), "dag", v] = some .dir → v ∈ nodes := by
  obtain ⟨nodes, x, order, distinct, literal, all⟩ := leaving.order positive
  obtain ⟨_, _, bottom⟩ := store.bottomUp positive
  refine ⟨nodes, ⟨.inr ⟨_, _, bottom⟩, .inr ⟨_, _, order⟩, ?_, distinct, leaving.tidy positive⟩, literal, all⟩
  have reached : t.resolve [genName (k - 1), "action", "exit", "order"] =
      [genName (k - 1), "top-down-order"] := by
    rw [resolve, follow, show t.get [genName (k - 1), "action", "exit", "order"] = _ from
      laid.previous positive]
    simp only [toTopDown, walk]
    apply t.follow_of_not_link
    simp [order]
  have file : t.isFile [genName (k - 1), "action", "exit", "order"] = true :=
    t.isFile_iff.mpr ⟨_, x, by rw [reached]; exact order⟩
  have orderFile : orderFile t [genName (k - 1)] "exit" = [genName (k - 1), "action", "exit", "order"] := by
    simp [Dagger.orderFile, file]
  rw [store.generateOrder_current positive, orderFile]
  exact t.cat_of_get (by rw [reached]; exact order)

theorem Leaving.evolvable (leaving : Leaving k t) (store : Store k t) (laid : Laid k t)
    (next : t.get ["next"] = some (.file [.num k] x)) (positive : 0 < k) (enum : Enumeration) :
    ∃ nodes, Evolvable enum t (some (k - 1)) k nodes (dagNodes enum t k) ∧ (∀ sh, NodesKept sh nodes) ∧
      ∀ v, t.get [genName (k - 1), "dag", v] = some .dir → v ∈ nodes := by
  obtain ⟨nodes, exit, literal, all⟩ := leaving.ready store laid positive enum
  have kept : ∀ sh, NodesKept sh nodes := fun sh node member =>
    expand_literal sh (literal node member).1 (literal node member).2
  refine ⟨nodes, ⟨store.proper, by simp, ?_, ⟨x, next⟩, ?_, ?_, ?_⟩, kept, all⟩
  · rintro gen ⟨⟩
    exact store.current positive
  · simp only [ne_eq, Option.some.injEq]
    omega
  · rintro gen ⟨⟩
    exact exit
  · rw [afterExit, store.generateOrder_current positive]
    exact laid.ready store enum

end Exit

/-- The lines that are started are the first ones. -/
theorem upToFailure_initial (exit : List String → Nat) (lines : List (List String)) :
    (upToFailure exit lines).map Prod.fst <+: lines := by
  induction lines with
  | nil => exact List.prefix_refl _
  | cons argv rest ih =>
    by_cases zero : exit argv = 0
    · simp [upToFailure, zero, ih]
    · simp [upToFailure, zero]

/-- Of two lists of scripts the second is begun when the first is through. -/
theorem upToFailure_parts (exit : List String → Nat) (line : Path → List String) (first second : List Path) :
    ∃ before after, (upToFailure exit (first.map line ++ second.map line)).map Prod.fst =
        (before ++ after).map line ∧ before <+: first ∧ after <+: second ∧
      (allZero exit (first.map line) = true ∨ after ≠ [] → before = first) := by
  obtain ⟨before, early, started⟩ := List.prefix_map_iff.mp (upToFailure_initial exit (first.map line))
  obtain ⟨after, late, begun⟩ := List.prefix_map_iff.mp (upToFailure_initial exit (second.map line))
  rw [upToFailure_append, List.map_append]
  cases zero : allZero exit (first.map line) with
  | false => exact ⟨before, [], by simp [started], early, List.nil_prefix, by simp⟩
  | true =>
    refine ⟨first, after, ?_, List.prefix_refl _, late, fun _ => rfl⟩
    simp [upToFailure_allZero zero, begun, Function.comp_def]

/-- The files of a node are listed as often as the node. -/
theorem count_flatMap_nodeFiles {t : Base σ} (file : q ∈ nodeFiles t gen action v) (nodes : List String) :
    (nodes.flatMap (nodeFiles t gen action)).count q = nodes.count v := by
  induction nodes with
  | nil => rfl
  | cons w rest ih =>
    rw [List.flatMap_cons, List.count_append, ih, List.count_cons]
    by_cases same : w = v
    · rw [same, List.count_eq_one_of_mem (nodeFiles_nodup _ _ _ _) file]
      simp [Nat.add_comm]
    · have other : q ∉ nodeFiles t gen action w := fun member =>
        (nodeFiles_disjoint_iff t gen action w v).mpr (fun equal => absurd equal same) member file
      simp [List.count_eq_zero_of_not_mem other, same]

theorem count_phase {t : Base σ} (file : q ∈ nodeFiles t gen action v) (distinct : nodes.Nodup)
    (listed : v ∈ nodes) (other : v ∉ ["@pre", "@post"]) : (phase t gen action nodes).count q = 1 := by
  simp only [List.mem_cons, List.not_mem_nil, or_false, not_or] at other
  rw [phase, count_flatMap_nodeFiles file, List.cons_append, List.count_cons, List.count_append,
    List.count_eq_one_of_mem distinct listed]
  simp [Ne.symm other.1, Ne.symm other.2]

/-- A run of the tool has two parts: the scripts it started before any init
script of the generation `n`, with `q` at most once among them, and the rest. If
the run succeeds, or there is a rest, `q` is there exactly once. -/
def ExecutedOnce (env : Env) (n : Int) (outcome : Outcome σ) (q : Path) : Prop :=
  ∃ before after : List Path,
    outcome.trace.map Prod.fst = (before ++ after).map (fun file => [env.path file]) ∧
    (∀ file ∈ before, ¬[genName n, "action", "init"] <+: file) ∧ q ∉ after ∧ before.count q ≤ 1 ∧
    (outcome.ok = true ∨ after ≠ [] → before.count q = 1)

/-- The paths of scripts are words. -/
theorem Leaving.oneWord {k : Nat} {t : Base σ} (leaving : Leaving k t) (env : Env) (base : Literal env.basedir)
    (runs : t.isExecutable (scriptPath gen action v prio script) = true) :
    OneWord env.sh (env.path (scriptPath gen action v prio script)) := by
  obtain ⟨data, found⟩ := isExecutable_iff.mp runs
  have words := leaving.worded (q := scriptPath gen action v prio script) (by simp [found]) gen action v _ rfl
  have literal : Literal (env.path (scriptPath gen action v prio script)) := by
    refine path_literal env base ?_
    rw [scriptPath, List.forall_mem_cons, List.forall_mem_cons]
    exact ⟨genName_literal gen, by decide, words⟩
  have nonempty : env.path (scriptPath gen action v prio script) ≠ "" := by
    rw [show scriptPath gen action v prio script =
      [genName gen, "action", action, v] ++ [scriptName prio script] from rfl, path_snoc]
    simp
  simp [OneWord, expand_literal env.sh literal nonempty]

/-- An evolve that succeeds has come to the end of its lines. -/
theorem Evolvable.ok_allZero [ToString σ] {k : Nat} {t : Base σ} (env : Env)
    (evolvable : Evolvable env.enum t c k exitNodes initNodes) (exitKept : c ≠ none → NodesKept env.sh exitNodes)
    (initKept : NodesKept env.sh initNodes) (store : Store k t) (laid : Laid k t)
    (next : t.get ["next"] = some (.file [.num k] x)) (ok : (doEvolve env t).ok = true) :
    allZero env.exit ((expected t c k exitNodes initNodes).flatMap (commandLines env)) = true := by
  by_contra notZero
  rw [← expected_visited exitKept initKept] at notZero
  have kept := ((evolvable.doEvolve_eq env).2.2 (by simpa using notZero)).2
  have cases := doEvolve_cases store laid next env
  generalize doEvolve env t = outcome at ok kept cases
  cases cases with
  | exitFailed trace => simp at ok
  | initFailed trace => simp at ok
  | succeeded trace zero =>
    rw [get_rename_source _ ⟨by decide, by decide⟩ (List.prefix_refl _), next] at kept
    simp at kept

theorem Leaving.phase_lines {k : Nat} {t : Base σ} (leaving : Leaving k t) (env : Env) (base : Literal env.basedir)
    (gen : Int) (action : String) (nodes : List String) :
    (phase t gen action nodes).flatMap (commandLines env) =
      (phase t gen action nodes).map fun file => [env.path file] := by
  refine (commandLines_eq_iff env fun file member => ?_).mpr fun file member => ?_
  · obtain ⟨_, _, rfl⟩ := phase_action member
    simp
  · obtain ⟨v, _, owned⟩ := List.mem_flatMap.mp member
    obtain ⟨prio, script, _, executable, rfl⟩ := mem_nodeFiles.mp owned
    exact leaving.oneWord env base executable

/-- Every exit script of a node of the current generation is run. -/
theorem exit_executed [ToString σ] {k : Nat} {t : Base σ} (leaving : Leaving k t) (store : Store k t)
    (laid : Laid k t) (next : t.get ["next"] = some (.file [.num k] x)) (positive : 0 < k) (env : Env)
    (base : Literal env.basedir) (node : t.get [genName (k - 1), "dag", v] = some .dir)
    (other : v ∉ ["@pre", "@post"]) (runs : t.isExecutable q = true)
    (below : [genName (k - 1), "action", "exit", v] <+: q) : ExecutedOnce env k (doEvolve env t) q := by
  obtain ⟨nodes, evolvable, kept, all⟩ := leaving.evolvable store laid next positive env.enum
  have initKept := store.dagNodes_kept env.enum env.sh
  have file : q ∈ nodeFiles t (k - 1) "exit" v := by
    obtain ⟨owner, prio, script, small, rfl⟩ := leaving.tidy positive q runs
      ((List.prefix_append [genName (k - 1), "action", "exit"] [v]).trans below)
    simp only [scriptPath, List.cons_prefix_cons, true_and] at below
    exact mem_nodeFiles.mpr ⟨prio, script, small, runs, by rw [below.1]⟩
  have once := count_phase file (evolvable.exit _ rfl).distinct (all v node) other
  have trace := (evolvable.doEvolve_eq env).1
  rw [expected_visited (fun _ => kept env.sh) initKept] at trace
  have ended := evolvable.ok_allZero env (fun _ => kept env.sh) initKept store laid next
  simp only [expected, List.flatMap_append, leaving.phase_lines env base, allZero_append] at trace ended
  obtain ⟨before, after, started, early, late, through⟩ := upToFailure_parts env.exit
    (fun file => [env.path file]) (phase t (k - 1) "exit" nodes) (phase t k "init" (dagNodes env.enum t k))
  refine ⟨before, after, by rw [trace, started], ?_, ?_, ?_, ?_⟩
  · intro script member
    obtain ⟨_, _, rfl⟩ := phase_action (early.subset member)
    simp
  · intro member
    obtain ⟨_, _, rfl⟩ := phase_action (late.subset member)
    simp at below
  · exact once ▸ early.sublist.count_le q
  · rintro (ok | rest)
    · rw [through (.inl (Bool.and_eq_true_iff.mp (ended ok)).1), once]
    · rw [through (.inr rest), once]

end Dagger
