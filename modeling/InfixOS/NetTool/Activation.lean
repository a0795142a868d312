import InfixOS.NetTool.Visits

/-! What an activation leaves behind: the file deps in the order of first visits, and
a log with the actions of each interface once. -/
namespace NetTool
open Exec Posix Graph

variable {host : Host} {tree : Tree} {gen : String} {action : Action} {s t : Proc}

theorem IsName.copied_eq (name : IsName i) : copied i = i := by
  have short := name.2.1
  rw [copied, List.take_of_length_le (by omega), String.ofList_toList]

theorem IsName.plain (name : IsName i) : '\n' ∉ i.toList := fun member => (name.2.2 _ member).2.2.2 rfl

theorem IsName.reads (names : ∀ i ∈ l, IsName i) : fgetsLines 20 (unlines l) = l := by
  apply fgetsLines_unlines
  intro i member
  have short := (names i member).2.1
  exact ⟨(names i member).plain, by omega⟩

theorem Tree.needs_ifaces (tree : Tree) : ∀ u ∈ tree.ifaces, ∀ c ∈ tree.needs u, c ∈ tree.ifaces := by
  intro u _ c member
  simp only [Tree.needs, List.mem_filter, List.contains_eq_mem, decide_eq_true_eq] at member
  exact List.mem_filter.mpr ⟨member.2, member.1.2⟩

theorem Tree.ifaces_named (tree : Tree) : ∀ i ∈ tree.ifaces, IsName i :=
  fun i member => tree.named i (List.mem_of_mem_filter member)

theorem Tree.ifaces_nodup (tree : Tree) : tree.ifaces.Nodup := tree.distinct.filter _

/-- Everything the recursion leaves in an activation, with its repetitions. -/
def Tree.walk (tree : Tree) (stack : Nat) : List String × Bool := walkAll (Graph.walk tree.needs stack) tree.ifaces

theorem Tree.walk_ifaces (tree : Tree) (stack : Nat) : ∀ i ∈ (tree.walk stack).1, i ∈ tree.ifaces :=
  walkAll_subset fun _ member => walk_subset tree.needs_ifaces member

theorem Tree.walk_named (tree : Tree) (stack : Nat) : ∀ i ∈ (tree.walk stack).1, IsName i :=
  fun i member => tree.ifaces_named i (tree.walk_ifaces stack i member)

/-- A walk that comes to its end has been everywhere. -/
theorem Tree.mem_walk (complete : (tree.walk stack).2 = true) : i ∈ (tree.walk stack).1 ↔ i ∈ tree.ifaces := by
  constructor
  · exact tree.walk_ifaces stack i
  · intro member
    have each := walkAll_complete.mp complete
    rw [Tree.walk, walkAll_eq_flatMap each]
    exact List.mem_flatMap.mpr ⟨i, member, (Graph.mem_walk (each i member)).mpr .refl⟩

def runs (log : List Log) : List (Action × String) :=
  log.flatMap fun
    | .run action owner => [(action, owner)]
    | _ => []

def events (log : List Log) : List Event :=
  log.flatMap fun
    | .event event => [event]
    | _ => []

def writes (log : List Log) : List Write :=
  log.flatMap fun
    | .write write => [write]
    | _ => []

@[simp] theorem runs_append (first second : List Log) : runs (first ++ second) = runs first ++ runs second :=
  List.flatMap_append

@[simp] theorem events_append (first second : List Log) : events (first ++ second) = events first ++ events second :=
  List.flatMap_append

@[simp] theorem writes_append (first second : List Log) : writes (first ++ second) = writes first ++ writes second :=
  List.flatMap_append

theorem runs_flatMap (xs : List β) (f : β → List Log) : runs (xs.flatMap f) = xs.flatMap fun x => runs (f x) :=
  List.flatMap_assoc

theorem events_flatMap (xs : List β) (f : β → List Log) : events (xs.flatMap f) = xs.flatMap fun x => events (f x) :=
  List.flatMap_assoc

/-- The file deps of a generation lists these interfaces. -/
structure Lists (files : Files) (gen : String) (names : List String) : Prop where
  text : (files.deps gen).getD [] = unlines names
  named : ∀ i ∈ names, IsName i

theorem Lists.listed_eq (lists : Lists files gen names) : listed files gen = names := by
  rw [listed, lists.text, IsName.reads lists.named]

/-- The file deps once more interfaces have been appended. -/
def Files.extend (files : Files) (gen : String) (names more : List String) : Files :=
  if more = [] then files else (Write.deps gen (unlines (names ++ more))).apply files

theorem Lists.extend (lists : Lists files gen names) (named : ∀ i ∈ more, IsName i) :
    Lists (files.extend gen names more) gen (names ++ more) := by
  constructor
  · rw [Files.extend]
    split
    · rename_i nothing
      rw [nothing, List.append_nil, lists.text]
    · simp [Write.apply]
  · intro i member
    rcases List.mem_append.mp member with old | new
    · exact lists.named i old
    · exact named i new

theorem extend_extend (files : Files) (gen : String) (names more rest : List String) :
    (files.extend gen names more).extend gen (names ++ more) rest = files.extend gen names (more ++ rest) := by
  by_cases nothing : rest = []
  · simp [Files.extend, nothing]
  · by_cases none : more = []
    · simp [Files.extend, nothing, none]
    · simp [Files.extend, nothing, none, Write.apply]

section Leave
variable (host tree gen action)

theorem leave_ifaceList (name : IsName i) : (leave host tree gen action s i).ifaceList =
    if i ∈ s.ifaceList then s.ifaceList else s.ifaceList ++ [i] := by
  rw [leave, acted, saved_ifaceList]
  split
  · exact saved_ifaceList ..
  · rw [name.copied_eq]

theorem leave_fold_ifaceList {l : List String} (names : ∀ i ∈ l, IsName i) (s : Proc) :
    (l.foldl (leave host tree gen action) s).ifaceList = s.ifaceList ++ unseen s.ifaceList l := by
  induction l generalizing s with
  | nil => simp [unseen]
  | cons i rest ih =>
    rw [List.forall_mem_cons] at names
    rw [List.foldl_cons, ih names.2, leave_ifaceList host tree gen action names.1, unseen]
    split
    · rfl
    · rw [List.append_assoc, List.singleton_append, unseen_concat]

/-- What is picked of the log, other than writes, is there once for each interface. -/
theorem leave_fold_log (pick : Log → List β) (silent : ∀ w, pick (.write w) = []) {l : List String}
    (names : ∀ i ∈ l, IsName i) (s : Proc) :
    (l.foldl (leave host tree gen action) s).log.flatMap pick = s.log.flatMap pick ++
      (unseen s.ifaceList l).flatMap fun i => (entryLog action i (tree.action i action)).flatMap pick := by
  induction l generalizing s with
  | nil => simp [unseen]
  | cons i rest ih =>
    rw [List.forall_mem_cons] at names
    have quiet : (saved host gen s i).log.flatMap pick = s.log.flatMap pick := by
      rw [saved]
      split
      · simp [silent]
      · rfl
    rw [List.foldl_cons, ih names.2, leave_ifaceList host tree gen action names.1, unseen, leave, acted, saved_ifaceList]
    split
    · rw [quiet]
    · rw [Proc.logs, List.flatMap_append, quiet, List.append_assoc, List.flatMap_cons, unseen_concat]

theorem leave_fold_events {l : List String} (names : ∀ i ∈ l, IsName i) (s : Proc) :
    events (l.foldl (leave host tree gen action) s).log = events s.log ++
      (unseen s.ifaceList l).flatMap fun i => events (entryLog action i (tree.action i action)) :=
  leave_fold_log host tree gen action _ (fun _ => rfl) names s

@[simp] theorem acted_files (s : Proc) (i : String) : (acted tree action s i).files = s.files := by
  rw [acted]
  split
  · rfl
  · rfl

@[simp] theorem acted_dep (s : Proc) (i : String) : (acted tree action s i).dep = s.dep := by
  rw [acted]
  split
  · rfl
  · rfl

theorem saved_eq {i : String} (opens : host.deps = true) (lists : Lists s.files gen names) :
    saved host gen s i = if i ∈ names then s else
      { s with
        dep := s.dep + 1
        files := s.files.extend gen names [i]
        log := s.log ++ [.write (.deps gen (unlines (names ++ [i])))] } := by
  rw [saved, opens, lists.listed_eq, lists.text]
  by_cases there : i ∈ names
  · simp [there]
  · simp [there, Files.extend]

/-- The names that are new to the file are appended, in the order of first visits. -/
theorem leave_fold_files (opens : host.deps = true) {l : List String} (named : ∀ i ∈ l, IsName i)
    (lists : Lists s.files gen names) :
    (l.foldl (leave host tree gen action) s).files = s.files.extend gen names (unseen names l) ∧
      (l.foldl (leave host tree gen action) s).dep = s.dep + (unseen names l).length := by
  induction l generalizing s names with
  | nil => simp [unseen, Files.extend]
  | cons i rest ih =>
    rw [List.forall_mem_cons] at named
    have here : (leave host tree gen action s i).files = (saved host gen s i).files := acted_files ..
    have dep : (leave host tree gen action s i).dep = (saved host gen s i).dep := acted_dep ..
    rw [saved_eq host gen opens lists] at here dep
    rw [List.foldl_cons, unseen]
    by_cases there : i ∈ names
    · rw [if_pos there] at here dep ⊢
      obtain ⟨files, count⟩ := ih named.2 (here ▸ lists)
      rw [files, count, here, dep]
      exact ⟨rfl, rfl⟩
    · rw [if_neg there] at here dep ⊢
      have single : ∀ j ∈ [i], IsName j := by simpa using named.1
      have next : Lists (leave host tree gen action s i).files gen (names ++ [i]) := by
        rw [here]
        exact lists.extend single
      obtain ⟨files, count⟩ := ih named.2 next
      rw [files, count, here, dep, unseen_concat, extend_extend]
      exact ⟨rfl, by simp only [List.length_cons]; omega⟩

end Leave

/-- A pipe is closed when its action has been through all interfaces. -/
def closeLog (action : Action) : List Log :=
  match pipep action.name with
  | some pipe => [.event (.close pipe)]
  | none => []

/-- One action over a generation whose walk comes to its end. -/
theorem iter_eq (gen : String) (action : Action) (complete : (tree.walk host.stack).2 = true) (s : Proc) :
    iter host tree gen action s = (.ok (tally host tree gen action host.stack tree.ifaces s),
      { ((tree.walk host.stack).1.foldl (leave host tree gen action) s).logs (closeLog action) with ifaceList := [] }) := by
  have ended : Program.sumOver tree.ifaces (deps host tree gen action host.stack) s =
      (.ok (tally host tree gen action host.stack tree.ifaces s),
        (tree.walk host.stack).1.foldl (leave host tree gen action) s) := by
    rw [sumOver_deps, walked]
    exact if_pos complete
  have freed (u : Proc) : freeifs u = (.ok (), { u with ifaceList := [] }) := rfl
  rw [iter, Program.bind_eq ended, Program.bind_eq (freed _), closeLog]
  cases pipep action.name with
  | none => simp [pure, Program.ret]
  | some pipe => simp [bind, Program.andThen, pure, Program.ret, pclose, record_eq, Proc.logs]

/-- Into a cycle of links no action ever comes to its end. -/
theorem iter_killed (gen : String) (action : Action) (broken : (tree.walk host.stack).2 = false) (s : Proc) :
    iter host tree gen action s = (.error .killed,
      ((tree.walk host.stack).1.foldl (leave host tree gen action) s).logs [.event .crash]) := by
  have ended : Program.sumOver tree.ifaces (deps host tree gen action host.stack) s =
      (.error .killed, ((tree.walk host.stack).1.foldl (leave host tree gen action) s).logs [.event .crash]) := by
    rw [sumOver_deps, walked]
    exact if_neg (by rw [← Tree.walk, broken]; simp)
  rw [iter, Program.bind_error ended]

/-- The interfaces in the order in which they are first left. -/
def Tree.order (tree : Tree) (stack : Nat) : List String := unseen [] (tree.walk stack).1

/-- What the calls from `iter` return, given the interfaces that have been taken care of
before. -/
def Tree.rcFrom (tree : Tree) (action : Action) (stack : Nat) : List String → List String → Int
  | [], _ => 0
  | i :: rest, seen =>
    (if i ∈ seen ++ (Graph.walk tree.needs stack i).1.dropLast then 0 else entryRc action (tree.action i action)) +
      tree.rcFrom action stack rest (seen ++ (Graph.walk tree.needs stack i).1)

def Tree.rc (tree : Tree) (action : Action) (stack : Nat) : Int := tree.rcFrom action stack tree.ifaces []

theorem tally_eq {tops seen : List String} (member : ∀ i ∈ tops, i ∈ tree.ifaces)
    (same : ∀ i, i ∈ s.ifaceList ↔ i ∈ seen) :
    tally host tree gen action stack tops s = tree.rcFrom action stack tops seen := by
  induction tops generalizing s seen with
  | nil => rfl
  | cons i rest ih =>
    rw [List.forall_mem_cons] at member
    have named : ∀ u ∈ (Graph.walk tree.needs stack i).1, IsName u :=
      fun u inside => tree.ifaces_named u (walk_subset tree.needs_ifaces member.1 u inside)
    have grown : ∀ l : List String, (∀ u ∈ l, IsName u) →
        ∀ u, u ∈ (l.foldl (leave host tree gen action) s).ifaceList ↔ u ∈ seen ++ l := by
      intro l names u
      rw [leave_fold_ifaceList host tree gen action names, List.mem_append, List.mem_append, mem_unseen, same]
      tauto
    rw [tally, Tree.rcFrom, depsRc, actRc, ih member.2 (grown _ named)]
    simp only [grown _ fun u inside => named u ((List.dropLast_sublist _).subset inside)]

/-- One action over a generation, when the list of interfaces is empty. -/
theorem iter_spec (action : Action) (complete : (tree.walk host.stack).2 = true) (opens : host.deps = true) (idle : s.ifaceList = [])
    (lists : Lists s.files gen names) :
    ∃ t, iter host tree gen action s = (.ok (tree.rc action host.stack), t) ∧
      t.ifaceList = [] ∧
      t.files = s.files.extend gen names (unseen names (tree.walk host.stack).1) ∧
      t.dep = s.dep + (unseen names (tree.walk host.stack).1).length ∧
      ∀ {β : Type} (pick : Log → List β), (∀ w, pick (.write w) = []) →
        t.log.flatMap pick = s.log.flatMap pick ++ ((tree.order host.stack).flatMap fun i =>
          (entryLog action i (tree.action i action)).flatMap pick) ++ (closeLog action).flatMap pick := by
  have named := tree.walk_named host.stack
  obtain ⟨files, dep⟩ := leave_fold_files host tree gen action opens named lists
  have rc : tally host tree gen action host.stack tree.ifaces s = tree.rc action host.stack :=
    tally_eq (fun _ member => member) (by simp [idle])
  have ran := iter_eq gen action complete s
  rw [rc] at ran
  refine ⟨_, ran, rfl, files, dep, ?_⟩
  intro β pick silent
  have log := leave_fold_log host tree gen action pick silent named s
  rw [idle] at log
  rw [Tree.order, ← log]
  exact List.flatMap_append

/-- The names that a first action has appended are there for the next ones. -/
theorem extend_again (names l : List String) : unseen (names ++ unseen names l) l = [] := by
  rw [unseen_eq_nil]
  intro v member
  by_cases old : v ∈ names
  · exact List.mem_append_left _ old
  · exact List.mem_append_right _ (mem_unseen.mpr ⟨member, old⟩)

/-- The three actions of an activation, in the order of the table. -/
theorem activate_spec (complete : (tree.walk host.stack).2 = true) (opens : host.deps = true) (idle : s.ifaceList = [])
    (lists : Lists s.files gen names) :
    ∃ t, activate host tree gen s = (.ok (initActions.map (tree.rc · host.stack)).sum, t) ∧
      t.ifaceList = [] ∧
      t.files = s.files.extend gen names (unseen names (tree.walk host.stack).1) ∧
      t.dep = s.dep + (unseen names (tree.walk host.stack).1).length ∧
      ∀ {β : Type} (pick : Log → List β), (∀ w, pick (.write w) = []) →
        t.log.flatMap pick = s.log.flatMap pick ++ initActions.flatMap fun action =>
          ((tree.order host.stack).flatMap fun i => (entryLog action i (tree.action i action)).flatMap pick) ++
            (closeLog action).flatMap pick := by
  have named : ∀ i ∈ unseen names (tree.walk host.stack).1, IsName i :=
    fun i member => tree.walk_named host.stack i (mem_unseen.mp member).1
  obtain ⟨a, first, idleA, filesA, depA, logA⟩ := iter_spec .initEthtool complete opens idle lists
  have listsA : Lists a.files gen _ := filesA ▸ lists.extend named
  obtain ⟨b, second, idleB, filesB, depB, logB⟩ := iter_spec .initIp complete opens idleA listsA
  rw [extend_again, Files.extend, if_pos rfl] at filesB
  rw [extend_again] at depB
  obtain ⟨c, third, idleC, filesC, depC, logC⟩ := iter_spec .initBridge complete opens idleB (filesB ▸ listsA)
  rw [extend_again, Files.extend, if_pos rfl] at filesC
  rw [extend_again] at depC
  refine ⟨c, ?_, idleC, ?_, ?_, ?_⟩
  · exact Program.sumOver_cons _ first (Program.sumOver_cons _ second (Program.sumOver_cons _ third rfl))
  · rw [filesC, filesB, filesA]
  · rw [depC, depB, depA]
    rfl
  · intro β pick silent
    rw [logC pick silent, logB pick silent, logA pick silent]
    simp [initActions]

end NetTool
