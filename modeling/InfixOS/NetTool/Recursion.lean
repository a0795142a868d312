import InfixOS.NetTool.Order

/-! The recursion `deps` on any directory. Names may be of any length, a link may be
named otherwise than the directory it leads to, and the links may go round in circles. -/
namespace NetTool
open Exec Posix Graph

/-- A generation as the tool finds it: what is enumerated, and for each directory, given
by what realpath(3) makes of its path, the links in its deps and where they lead. -/
structure Generation where
  entries : List String
  path : String → String
  links : String → List (String × Option String)
  action : String → Action → Entry
  /-- The last part of the path of the directory above, and of its own. -/
  place : String → String × String
  dirs : List String
  inside : ∀ i ∈ entries, path i ∈ dirs
  closed : ∀ p ∈ dirs, ∀ link ∈ links p, ∀ q ∈ link.2, q ∈ dirs

namespace Generation

/-- The directories that are enumerated, each with the name it goes by. -/
def tops (g : Generation) : List (String × String) := (g.entries.filter dirFilter).map fun i => (i, g.path i)

/-- Where the links of a directory lead. -/
def targets (g : Generation) (p : String) : List (String × String) :=
  ((g.links p).filter fun link => dirFilter link.1).filterMap fun link => link.2.map fun q => (link.1, q)

def next (g : Generation) (v : String × String) : List (String × String) := g.targets v.2

def act (g : Generation) (action : Action) (v : String × String) : Net Int := do
  let found ← findif v.1
  if found then pure 0
  else do
    let rc ← attempt action v.2 (g.action v.2 action)
    addif v.1
    pure rc

def deps (host : Host) (g : Generation) (action : Action) : Nat → String × String → Net Int
  | 0, _ => do
    record (.event .crash)
    Program.fail .killed
  | stack + 1, v => do
    Program.forEach (g.next v) fun c => do
      let _ ← deps host g action stack c
    savedep host (g.place v.2).1 (g.place v.2).2
    g.act action v

def iter (host : Host) (g : Generation) (action : Action) : Net Int := do
  let rc ← Program.sumOver g.tops fun v => deps host g action host.stack v
  freeifs
  (pipep action.name).elim (pure ()) fun pipe => do let _ ← pclose host pipe
  pure rc

section Walk
variable {host : Host} {g : Generation} {action : Action}

def acted (g : Generation) (action : Action) (s : Proc) (v : String × String) : Proc :=
  if v.1 ∈ s.ifaceList then s
  else { s.logs (entryLog action v.2 (g.action v.2 action)) with ifaceList := s.ifaceList ++ [copied v.1] }

def actRc (g : Generation) (action : Action) (s : Proc) (v : String × String) : Int :=
  if v.1 ∈ s.ifaceList then 0 else entryRc action (g.action v.2 action)

theorem act_eq (g : Generation) (action : Action) (v : String × String) (s : Proc) :
    g.act action v s = (.ok (g.actRc action s v), g.acted action s v) := by
  have found : findif v.1 s = (.ok (s.ifaceList.contains v.1), s) := rfl
  rw [act, Program.bind_eq found, actRc, acted]
  by_cases there : v.1 ∈ s.ifaceList
  · simp [there, pure, Program.ret]
  · simp only [there, List.contains_eq_mem, decide_false, Bool.false_eq_true, if_false]
    exact Program.bind_eq (attempt_eq action v.2 _ s) _

def leave (host : Host) (g : Generation) (action : Action) (s : Proc) (v : String × String) : Proc :=
  g.acted action (saved host (g.place v.2).1 s (g.place v.2).2) v

theorem leave_eq (host : Host) (g : Generation) (action : Action) (v : String × String) (s : Proc) :
    (do savedep host (g.place v.2).1 (g.place v.2).2; g.act action v : Net Int) s =
      (.ok (g.actRc action s v), leave host g action s v) := by
  rw [Program.bind_eq (savedep_eq host _ _ s), act_eq, actRc, actRc, saved_ifaceList]
  rfl

theorem deps_eq (host : Host) (g : Generation) (action : Action) (stack : Nat) (v : String × String) (s : Proc) :
    deps host g action stack v s =
      walkedBy (leave host g action) kill (walk g.next stack v)
        (lastResult g.next (g.actRc action) (leave host g action) stack s v) s := by
  have recursion : ∀ v, deps host g action stack v =
      Graph.traverse g.next (fun v => do savedep host (g.place v.2).1 (g.place v.2).2; g.act action v)
        (do record (.event .crash); Program.fail .killed) stack v := by
    induction stack with
    | zero => exact fun v => rfl
    | succ stack ih =>
      intro v
      rw [deps, Graph.traverse]
      simp only [ih]
  have stops (s : Proc) : (do record (.event .crash); Program.fail .killed : Net Int) s = (.error (kill s).1, (kill s).2) := rfl
  rw [recursion]
  exact traverse_eq (leave_eq host g action) stops stack v s

theorem sumOver_deps (host : Host) (g : Generation) (action : Action) (stack : Nat) (tops : List (String × String)) (s : Proc) :
    ∃ rc, Program.sumOver tops (deps host g action stack) s =
      walkedBy (leave host g action) kill (walkAll (walk g.next stack) tops) rc s := by
  induction tops generalizing s with
  | nil => exact ⟨0, rfl⟩
  | cons v rest ih =>
    obtain ⟨rc, later⟩ := ih ((walk g.next stack v).1.foldl (leave host g action) s)
    exact ⟨_, walkedBy_bind (deps_eq host g action stack v s) (walkedBy_map later _)⟩

/-- One action over the generation: it comes to its end, or the process is killed. -/
theorem iter_ends (host : Host) (g : Generation) (action : Action) (s : Proc) :
    ((walkAll (walk g.next host.stack) g.tops).2 = true → ∃ rc, iter host g action s = (.ok rc,
      { ((walkAll (walk g.next host.stack) g.tops).1.foldl (leave host g action) s).logs (closeLog action) with
        ifaceList := [] })) ∧
    ((walkAll (walk g.next host.stack) g.tops).2 = false → (iter host g action s).1 = .error .killed) := by
  obtain ⟨rc, summed⟩ := sumOver_deps host g action host.stack g.tops s
  rw [walkedBy] at summed
  constructor
  · intro complete
    rw [if_pos complete] at summed
    refine ⟨rc, ?_⟩
    have freed (u : Proc) : freeifs u = (.ok (), { u with ifaceList := [] }) := rfl
    rw [iter, Program.bind_eq summed, Program.bind_eq (freed _), closeLog]
    cases pipep action.name with
    | none => simp [bind, Program.andThen, pure, Program.ret]
    | some pipe => simp [bind, Program.andThen, pure, Program.ret, pclose, record_eq, Proc.logs]
  · intro broken
    rw [if_neg (by simp [broken])] at summed
    rw [iter, Program.bind_error summed]
    rfl

/-- The visits under a name that is not in the list of interfaces. -/
def fresh : List String → List (String × String) → List (String × String)
  | _, [] => []
  | seen, v :: rest => if v.1 ∈ seen then fresh seen rest else v :: fresh (seen ++ [copied v.1]) rest

theorem leave_ifaceList (s : Proc) (v : String × String) : (leave host g action s v).ifaceList =
    if v.1 ∈ s.ifaceList then s.ifaceList else s.ifaceList ++ [copied v.1] := by
  rw [leave, acted, saved_ifaceList]
  split
  · exact saved_ifaceList ..
  · rfl

theorem leave_runs (s : Proc) (v : String × String) : runs (leave host g action s v).log =
    runs s.log ++ if v.1 ∈ s.ifaceList then [] else runs (entryLog action v.2 (g.action v.2 action)) := by
  have quiet : runs (saved host (g.place v.2).1 s (g.place v.2).2).log = runs s.log := by
    rw [saved]
    split
    · exact (runs_append _ _).trans (List.append_nil _)
    · rfl
  rw [leave, acted, saved_ifaceList]
  split
  · rw [quiet, List.append_nil]
  · rw [Proc.logs, runs_append, quiet]

theorem leave_fold_runs (visits : List (String × String)) (s : Proc) :
    runs (visits.foldl (leave host g action) s).log = runs s.log ++
      (fresh s.ifaceList visits).flatMap fun v => runs (entryLog action v.2 (g.action v.2 action)) := by
  induction visits generalizing s with
  | nil => simp [fresh]
  | cons v rest ih =>
    rw [List.foldl_cons, ih, leave_runs, leave_ifaceList, fresh]
    split
    · rw [List.append_nil]
    · rw [List.append_assoc, List.flatMap_cons]

/-- How often a directory has its action run. -/
theorem count_runs (visits : List (String × String)) (p : String) :
    (visits.flatMap fun v => runs (entryLog action v.2 (g.action v.2 action))).count (action, p) =
      if (g.action p action).runnable then (visits.map Prod.snd).count p else 0 := by
  induction visits with
  | nil => simp
  | cons v rest ih =>
    rw [List.flatMap_cons, List.count_append, ih, runs_entry, List.map_cons, List.count_cons]
    by_cases same : v.2 = p
    · rw [same]
      cases (g.action p action).runnable with
      | true => simp [Nat.add_comm]
      | false => simp
    · have other : (action, v.2) ≠ (action, p) := fun equal => same (congrArg Prod.snd equal)
      have none : (if (g.action v.2 action).runnable then [(action, v.2)] else []).count (action, p) = 0 := by
        split
        · exact List.count_eq_zero.mpr fun member => other (List.mem_singleton.mp member).symm
        · rfl
      simp [none, same]

theorem copied_copied (ifname : String) : copied (copied ifname) = copied ifname := by
  simp [copied, List.take_take]

/-- The more is in the list, the fewer visits are new. -/
theorem fresh_sublist {few many : List String} (cut : ∀ i ∈ many, copied i = i) (more : few ⊆ many)
    (visits : List (String × String)) : (fresh many visits).Sublist (fresh few visits) := by
  induction visits generalizing few many with
  | nil => exact .slnil
  | cons v rest ih =>
    rw [fresh, fresh]
    by_cases late : v.1 ∈ many
    · rw [if_pos late]
      split
      · exact ih cut more
      · -- the name is kept as it is, for it stands in the list already
        have grown : few ++ [copied v.1] ⊆ many := by
          intro i member
          rcases List.mem_append.mp member with old | new
          · exact more old
          · rw [List.mem_singleton.mp new, cut _ late]
            exact late
        exact (ih cut grown).cons v
    · rw [if_neg late, if_neg fun early => late (more early)]
      refine (ih ?_ ?_).cons_cons v
      · intro i member
        rcases List.mem_append.mp member with old | new
        · exact cut i old
        · rw [List.mem_singleton.mp new, copied_copied]
      · exact fun i member => List.mem_append.mpr ((List.mem_append.mp member).imp (fun old => more old) id)

end Walk

section Once
variable {g : Generation}

def Leads (g : Generation) (p q : String) : Prop := ∃ name, (name, q) ∈ g.targets p

/-- No directory that the recursion gets to depends on itself, directly or through others. -/
def Acyclic (g : Generation) : Prop :=
  ∀ top ∈ g.tops, ∀ p, Relation.ReflTransGen g.Leads top.2 p → ¬Relation.TransGen g.Leads p p

theorem leads_of_edge (u v : String × String) (edge : Edge g.next u v) : g.Leads u.2 v.2 := ⟨v.1, edge⟩

theorem edges_of_leads {v : String × String} (path : Relation.TransGen g.Leads v.2 q) :
    ∃ name, Relation.TransGen (Edge g.next) v (name, q) := by
  induction path with
  | single lead =>
    obtain ⟨name, member⟩ := lead
    exact ⟨name, .single member⟩
  | tail _ lead ih =>
    obtain ⟨above, path⟩ := ih
    obtain ⟨name, member⟩ := lead
    exact ⟨name, path.tail member⟩

/-- What a visit leads to does not depend on the name it goes by. -/
theorem edges_from (path : Relation.TransGen (Edge g.next) (name, p) v) (name' : String) :
    Relation.TransGen (Edge g.next) (name', p) v := by
  induction path with
  | single edge => exact .single edge
  | tail _ edge ih => exact ih.tail edge

theorem acyclic_iff (g : Generation) : AcyclicFrom g.next g.tops ↔ g.Acyclic := by
  constructor
  · intro acyclic top member p path cycle
    obtain ⟨name, reached⟩ : ∃ name, Relation.ReflTransGen (Edge g.next) top (name, p) := by
      rcases Relation.reflTransGen_iff_eq_or_transGen.mp path with here | below
      · exact ⟨top.1, by rw [here]⟩
      · obtain ⟨name, edges⟩ := edges_of_leads below
        exact ⟨name, edges.to_reflTransGen⟩
    have start : Relation.TransGen g.Leads (name, p).2 p := cycle
    obtain ⟨again, edges⟩ := edges_of_leads start
    exact acyclic top member (again, p) (reached.trans edges.to_reflTransGen) (edges_from edges again)
  · intro acyclic top member v path cycle
    exact acyclic top member v.2 (path.lift Prod.snd leads_of_edge) (cycle.lift Prod.snd leads_of_edge)

def nodes (g : Generation) : List (String × String) := g.tops ++ g.dirs.flatMap g.targets

theorem nodes_dirs (member : v ∈ g.nodes) : v.2 ∈ g.dirs := by
  rcases List.mem_append.mp member with top | target
  · obtain ⟨i, entry, rfl⟩ := List.mem_map.mp top
    exact g.inside i (List.mem_of_mem_filter entry)
  · obtain ⟨p, dir, found⟩ := List.mem_flatMap.mp target
    obtain ⟨link, listed, leads⟩ := List.mem_filterMap.mp found
    obtain ⟨q, there, rfl⟩ := Option.map_eq_some_iff.mp leads
    exact g.closed p dir link (List.mem_of_mem_filter listed) q there

theorem nodes_closed (g : Generation) : ∀ u ∈ g.nodes, ∀ c ∈ g.next u, c ∈ g.nodes := by
  intro u node c edge
  exact List.mem_append_right _ (List.mem_flatMap.mpr ⟨u.2, nodes_dirs node, edge⟩)

theorem Acyclic.walk_ends (acyclic : g.Acyclic) (enough : g.nodes.length ≤ stack) :
    (walkAll (walk g.next stack) g.tops).2 = true :=
  ((acyclic_iff g).mpr acyclic).ends (fun _ member => List.mem_append_left _ member) g.nodes_closed enough

/-- The links followed to their ends, in post-order and with all repetitions. -/
def visits (g : Generation) : List (String × String) := (walkAll (walk g.next g.nodes.length) g.tops).1

/-- No directory that has the action is visited twice under names that are new. -/
def Once (g : Generation) (action : Action) : Prop :=
  ∀ p, (g.action p action).runnable = true → ((fresh [] g.visits).map Prod.snd).count p ≤ 1

theorem visits_nodes (g : Generation) : ∀ v ∈ g.visits, v ∈ g.nodes :=
  walkAll_subset fun _ member => walk_subset g.nodes_closed (List.mem_append_left _ member)

theorem fresh_distinct {l : List (String × String)} (short : ∀ v ∈ l, copied v.1 = v.1) (seen : List String) :
    (fresh seen l).Pairwise (fun v w => v.1 ≠ w.1) ∧ ∀ v ∈ fresh seen l, v ∈ l ∧ v.1 ∉ seen := by
  induction l generalizing seen with
  | nil => exact ⟨.nil, fun v member => nomatch member⟩
  | cons v rest ih =>
    rw [List.forall_mem_cons] at short
    rw [fresh]
    split
    · obtain ⟨distinct, members⟩ := ih short.2 seen
      exact ⟨distinct, fun w member => ⟨List.mem_cons_of_mem v (members w member).1, (members w member).2⟩⟩
    · rename_i new
      obtain ⟨distinct, members⟩ := ih short.2 (seen ++ [copied v.1])
      refine ⟨distinct.cons fun w member same => ?_, ?_⟩
      · have known : w.1 ∈ seen ++ [copied v.1] := by
          rw [short.1, same]
          exact List.mem_append_right _ (List.mem_singleton_self _)
        exact (members w member).2 known
      · rw [List.forall_mem_cons]
        refine ⟨⟨List.mem_cons_self, new⟩, fun w member => ?_⟩
        exact ⟨List.mem_cons_of_mem v (members w member).1, fun old => (members w member).2 (List.mem_append_left _ old)⟩

/-- Names that the kernel has room for, one for each directory, are enough. -/
theorem once_of_named (short : ∀ v ∈ g.visits, copied v.1 = v.1)
    (named : ∀ v ∈ g.visits, ∀ w ∈ g.visits, v.2 = w.2 → v.1 = w.1) (action : Action) : g.Once action := by
  intro p _
  obtain ⟨distinct, members⟩ := fresh_distinct short []
  have apart : (fresh [] g.visits).Pairwise fun v w => v.2 ≠ w.2 :=
    distinct.imp_of_mem fun first second names same =>
      names (named _ (members _ first).1 _ (members _ second).1 same)
  exact List.nodup_iff_count_le_one.mp (List.pairwise_map.mpr apart) p

/-- With a stack that is large enough an action comes to its end, whatever was asked for
and done before, and no directory has had it run more than once. -/
def WalksOnce (host : Host) (g : Generation) (action : Action) : Prop :=
  ∃ stack, ∀ (args : List String) (s : Proc), s.ifaceList = args.map copied →
    ∃ rc t, g.iter { host with stack := stack } action s = (.ok rc, t) ∧
      ∀ p, (runs t.log).count (action, p) ≤ (runs s.log).count (action, p) + 1

theorem iter_count (host : Host) (action : Action) (ends : (walkAll (walk g.next host.stack) g.tops).2 = true) (s : Proc) :
    ∃ rc t, g.iter host action s = (.ok rc, t) ∧ ∀ p, (runs t.log).count (action, p) = (runs s.log).count (action, p) +
      if (g.action p action).runnable then ((fresh s.ifaceList g.visits).map Prod.snd).count p else 0 := by
  have acyclic := (acyclic_iff g).mp (acyclicFrom_of_ends ends)
  -- the walk is the same with every stack that is large enough
  have same : (walkAll (walk g.next host.stack) g.tops).1 = g.visits := by
    rw [visits, ← walkAll_mono ends (le_max_left _ g.nodes.length)]
    exact congrArg Prod.fst (walkAll_mono (acyclic.walk_ends (Nat.le_refl _)) (le_max_right _ _))
  obtain ⟨rc, ran⟩ := (iter_ends host g action s).1 ends
  refine ⟨rc, _, ran, fun p => ?_⟩
  have log : runs ((g.visits.foldl (leave host g action) s).logs (closeLog action)).log = runs s.log ++
      (fresh s.ifaceList g.visits).flatMap fun v => runs (entryLog action v.2 (g.action v.2 action)) := by
    rw [Proc.logs, runs_append, runs_closeLog, List.append_nil, leave_fold_runs]
  rw [same, log, List.count_append, count_runs]

/-- The recursion terminates, and runs an action at most once for each interface, exactly
if no interface depends on itself and none is visited twice under names that are new. -/
theorem walksOnce_iff (host : Host) (g : Generation) (action : Action) :
    g.WalksOnce host action ↔ g.Acyclic ∧ g.Once action := by
  constructor
  · intro ⟨stack, once⟩
    let s : Proc := start [] ⟨fun _ => none, fun _ => none, none, none⟩
    obtain ⟨rc, t, ran, most⟩ := once [] s rfl
    have ends : (walkAll (walk g.next stack) g.tops).2 = true := by
      rw [← Bool.not_eq_false]
      intro broken
      have killed := (iter_ends { host with stack := stack } g action s).2 broken
      rw [ran] at killed
      cases killed
    refine ⟨(acyclic_iff g).mp (acyclicFrom_of_ends ends), fun p has => ?_⟩
    obtain ⟨rc', t', ran', count⟩ := iter_count { host with stack := stack } action ends s
    obtain ⟨-, rfl⟩ := Prod.mk.inj (ran.symm.trans ran')
    have counted := most p
    rw [count p, if_pos has] at counted
    exact Nat.le_of_add_le_add_left counted
  · rintro ⟨acyclic, once⟩
    refine ⟨g.nodes.length, fun args s asked => ?_⟩
    obtain ⟨rc, t, ran, count⟩ := iter_count { host with stack := g.nodes.length } action
      (acyclic.walk_ends (Nat.le_refl _)) s
    refine ⟨rc, t, ran, fun p => ?_⟩
    rw [count p]
    apply Nat.add_le_add_left
    split
    · rename_i has
      have cut : ∀ i ∈ s.ifaceList, copied i = i := by
        intro i member
        rw [asked] at member
        obtain ⟨arg, -, rfl⟩ := List.mem_map.mp member
        exact copied_copied arg
      have fewer := (fresh_sublist cut (List.nil_subset _) g.visits).map Prod.snd
      exact Nat.le_trans (fewer.count_le p) (once p has)
    · exact Nat.zero_le 1

/-- An interface whose only dependency is itself. -/
def selfLink : Generation where
  entries := ["eth0"]
  path := id
  links := fun _ => [("eth0", some "eth0")]
  action := fun _ _ => .missing
  place := fun p => ("0", p)
  dirs := ["eth0"]
  inside := fun _ member => member
  closed := by simp

theorem selfLink_killed (host : Host) (action : Action) (s : Proc) : (selfLink.iter host action s).1 = .error .killed := by
  refine (iter_ends host selfLink action s).2 ?_
  have edge : Edge selfLink.next ("eth0", "eth0") ("eth0", "eth0") := by
    change ("eth0", "eth0") ∈ selfLink.targets "eth0"
    decide
  have broken : (walk selfLink.next host.stack ("eth0", "eth0")).2 = false := walk_cycle (.single edge)
  have root : selfLink.tops = [("eth0", "eth0")] := by decide
  rw [root, ← Bool.not_eq_true]
  intro ends
  have whole := walkAll_complete.mp ends _ (List.mem_singleton_self _)
  rw [broken] at whole
  cases whole

/-- No stack is large enough for it. -/
theorem self_dependency_unbounded : ¬selfLink.WalksOnce allGranted .initIp := by
  intro ⟨stack, once⟩
  obtain ⟨rc, t, ran, -⟩ := once [] (start [] ⟨fun _ => none, fun _ => none, none, none⟩) rfl
  have killed := selfLink_killed { allGranted with stack := stack } .initIp
    (start [] ⟨fun _ => none, fun _ => none, none, none⟩)
  rw [ran] at killed
  cases killed

end Once

end Generation

section Trees
variable (host : Host) (tree : Tree) (gen : String) (action : Action)

/-- Links that are named after the interfaces they lead to. -/
def Tree.generation : Generation where
  entries := tree.entries
  path := id
  links := fun i => (tree.links i).map fun link => (link, if link ∈ tree.entries then some link else none)
  action := tree.action
  place := fun i => (gen, i)
  dirs := tree.entries
  inside := fun _ member => member
  closed := by
    intro p _ link member q leads
    obtain ⟨name, -, rfl⟩ := List.mem_map.mp member
    obtain ⟨there, same⟩ := Option.ite_none_right_eq_some.mp leads
    exact Option.some.inj same ▸ there

theorem Tree.generation_targets (i : String) : (tree.generation gen).targets i = (tree.needs i).map fun link => (link, link) := by
  rw [Tree.needs, Generation.targets]
  change (((tree.links i).map _).filter _).filterMap _ = _
  induction tree.links i with
  | nil => rfl
  | cons link rest ih =>
    rw [List.map_cons, List.filter_cons, List.filter_cons]
    cases keep : dirFilter link with
    | false => simpa [keep] using ih
    | true =>
      by_cases there : link ∈ tree.entries
      · simpa [keep, there] using ih
      · simpa [keep, there] using ih

theorem Tree.generation_tops : (tree.generation gen).tops = tree.ifaces.map fun i => (i, i) := rfl

/-- The recursion of a tree is that of its generation. -/
theorem Tree.iter_generation : iter host tree gen action = (tree.generation gen).iter host action := by
  have same (stack : Nat) : ∀ i, deps host tree gen action stack i = Generation.deps host (tree.generation gen) action stack (i, i) := by
    induction stack with
    | zero => exact fun i => rfl
    | succ stack ih =>
      intro i
      rw [deps, Generation.deps, Generation.next, Tree.generation_targets, Program.forEach_map]
      simp only [ih]
      rfl
  rw [iter, Generation.iter, Tree.generation_tops, Program.sumOver_map]
  simp only [same]
  cases pipep action.name with
  | none => rfl
  | some pipe => rfl

theorem Tree.generation_once : (tree.generation gen).Once action := by
  have plain (v : String × String) (member : v ∈ (tree.generation gen).nodes) : v.1 = v.2 := by
    rcases List.mem_append.mp member with top | target
    · obtain ⟨i, -, rfl⟩ := List.mem_map.mp top
      rfl
    · obtain ⟨p, -, found⟩ := List.mem_flatMap.mp target
      rw [Tree.generation_targets] at found
      obtain ⟨i, -, rfl⟩ := List.mem_map.mp found
      rfl
  have node := (tree.generation gen).visits_nodes
  refine Generation.once_of_named ?_ ?_ action
  · intro v member
    have entry : v.2 ∈ tree.entries := Generation.nodes_dirs (node v member)
    rw [plain v (node v member)]
    exact (tree.named v.2 entry).copied_eq
  · intro v first w second same
    rw [plain v (node v first), plain w (node w second), same]

end Trees

end NetTool
