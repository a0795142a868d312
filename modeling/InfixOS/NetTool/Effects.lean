import InfixOS.NetTool.Order

/-! When the commands of an invocation take effect. The tool writes ip and bridge
commands to pipes that are opened once, runs ethtool scripts itself, and closes a pipe
only after the init action that uses it. -/
namespace NetTool
open Exec Posix Graph

variable {host : Host} {tree : Tree} {gen : String} {s t : Proc}

/-- The order of the action tables: exit actions one after the other, then the init
actions. -/
def Command.rank (c : Command) : Nat :=
  match c.action with
  | .exitBridge => 0
  | .exitIp => 1
  | .exitEthtool => 2
  | .initEthtool | .initIp | .initBridge => 3

def commandsOf (action : Action) (owner : String) : Entry → List Command
  | .file file =>
    if (pipep action.name).isNone then [⟨action, owner, action.name⟩]
    else if file.fault = some .open then []
    else (fgetsLines 256 file.text).map fun line => ⟨action, owner, line⟩
  | _ => []

/-- The commands of an action, over the interfaces in their order. -/
def Tree.commands (tree : Tree) (order : List String) (action : Action) : List Command :=
  order.flatMap fun i => commandsOf action i (tree.action i action)

def issue (action : Action) (c : Command) : Event :=
  match pipep action.name with
  | some pipe => .put pipe c
  | none => .direct c

theorem events_entryLog (action : Action) (i : String) (entry : Entry) :
    events (entryLog action i entry) = (commandsOf action i entry).map (issue action) := by
  cases entry with
  | missing => rfl
  | unresolved => rfl
  | file file =>
    have first : events (entryLog action i (.file file)) = events (fileLog action i file) := rfl
    rw [first, fileLog, commandsOf]
    cases kind : pipep action.name with
    | none => simp [issue, kind, events]
    | some pipe =>
      have piped : issue action = .put pipe := funext fun c => by rw [issue, kind]
      by_cases unopened : file.fault = some .open
      · simp [unopened, events]
      · simp only [unopened, if_false, piped, events, List.flatMap_map, List.map_map, Option.isNone_some,
          Bool.false_eq_true]
        exact List.map_eq_flatMap.symm

theorem events_order (tree : Tree) (order : List String) (action : Action) :
    events (order.flatMap fun i => entryLog action i (tree.action i action)) =
      (tree.commands order action).map (issue action) := by
  rw [events_flatMap, Tree.commands, List.map_flatMap]
  apply List.flatMap_congr
  intro i _
  exact events_entryLog action i _

theorem commands_action (member : c ∈ tree.commands order action) : c.action = action := by
  obtain ⟨i, _, inside⟩ := List.mem_flatMap.mp member
  cases entry : tree.action i action with
  | missing => simp [entry, commandsOf] at inside
  | unresolved => simp [entry, commandsOf] at inside
  | file file =>
    rw [entry, commandsOf] at inside
    split at inside
    · rw [List.mem_singleton.mp inside]
    · split at inside
      · cases inside
      · obtain ⟨line, _, rfl⟩ := List.mem_map.mp inside
        rfl

theorem commands_rank (member : c ∈ tree.commands order action) : c.rank = (Command.mk action "" "").rank := by
  rw [Command.rank, commands_action member]
  rfl

/-- What is issued to tear a generation down. -/
def exitEvents (tree : Tree) (order : List String) : List Event :=
  (tree.commands order .exitBridge).map (.put .bridge) ++ (tree.commands order .exitIp).map (.put .ip) ++
    (tree.commands order .exitEthtool).map .direct

/-- What is issued to bring a generation up, as far as the walk of its links goes. -/
def initEvents (tree : Tree) (stack : Nat) : List Event :=
  (tree.commands (tree.order stack) .initEthtool).map .direct ++
    if (tree.walk stack).2 then
      (tree.commands (tree.order stack) .initIp).map (.put .ip) ++ [.close .ip] ++
        (tree.commands (tree.order stack) .initBridge).map (.put .bridge) ++ [.close .bridge]
    else [.crash]

theorem deactivate_events (tree : Tree) (gen : String) (s : Proc) :
    events (deactivate tree gen s).2.log = events s.log ++ exitEvents tree (visits s.files gen) := by
  have bridge : issue .exitBridge = .put .bridge := funext fun _ => rfl
  have ip : issue .exitIp = .put .ip := funext fun _ => rfl
  have ethtool : issue .exitEthtool = .direct := funext fun _ => rfl
  rw [deactivate_eq, Proc.logs, events_append, events_flatMap]
  simp only [exitActions, List.flatMap_cons, List.flatMap_nil, events_order, bridge, ip, ethtool, exitEvents,
    List.append_nil, List.append_assoc]

/-- An init action whose walk comes to its end, seen by its events. -/
theorem iter_events (complete : (tree.walk host.stack).2 = true) (gen : String) (action : Action) (idle : s.ifaceList = []) :
    ∃ rc t, iter host tree gen action s = (.ok rc, t) ∧ t.ifaceList = [] ∧
      events t.log = events s.log ++ (tree.commands (tree.order host.stack) action).map (issue action) ++
        events (closeLog action) := by
  refine ⟨_, _, iter_eq gen action complete s, rfl, ?_⟩
  have log := leave_fold_events host tree gen action (tree.walk_named host.stack) s
  rw [idle] at log
  rw [← events_order, events_flatMap]
  refine (events_append _ _).trans (congrArg (· ++ _) ?_)
  exact log

theorem activate_events (gen : String) (idle : s.ifaceList = []) :
    events (activate host tree gen s).2.log = events s.log ++ initEvents tree host.stack := by
  have ethtool : issue .initEthtool = .direct := funext fun _ => rfl
  have ip : issue .initIp = .put .ip := funext fun _ => rfl
  have bridge : issue .initBridge = .put .bridge := funext fun _ => rfl
  cases ended : (tree.walk host.stack).2 with
  | true =>
    obtain ⟨_, a, first, idleA, eventsA⟩ := iter_events ended gen .initEthtool idle
    obtain ⟨_, b, second, idleB, eventsB⟩ := iter_events ended gen .initIp idleA
    obtain ⟨_, c, third, _, eventsC⟩ := iter_events ended gen .initBridge idleB
    have ran : activate host tree gen s = (.ok _, c) :=
      Program.sumOver_cons _ first (Program.sumOver_cons _ second (Program.sumOver_cons _ third rfl))
    have closeEthtool : events (closeLog .initEthtool) = [] := rfl
    have closeIp : events (closeLog .initIp) = [.close .ip] := rfl
    have closeBridge : events (closeLog .initBridge) = [.close .bridge] := rfl
    rw [ran, eventsC, eventsB, eventsA, initEvents, if_pos ended, ethtool, ip, bridge, closeEthtool, closeIp, closeBridge]
    simp only [List.append_assoc, List.nil_append]
  | false =>
    have ran : activate host tree gen s = (.error .killed, _) :=
      Program.sumOver_error _ (iter_killed gen .initEthtool ended s) _
    have log := leave_fold_events host tree gen .initEthtool (tree.walk_named host.stack) s
    rw [idle] at log
    rw [ran, initEvents, if_neg (by simp [ended]), ← ethtool, ← events_order, events_flatMap, ← List.append_assoc]
    refine (events_append _ _).trans (congrArg (· ++ _) ?_)
    exact log

/-- The state has not issued anything more. -/
def Silent (s t : Proc) : Prop := events t.log = events s.log

theorem Silent.refl (s : Proc) : Silent s s := rfl

theorem Silent.trans (s t u : Proc) (first : Silent s t) (second : Silent t u) : Silent s u := Eq.trans second first

theorem write_silent (w : Write) : Program.Always Silent (write w) := by
  intro s
  exact (events_append s.log [.write w]).trans (List.append_nil _)

theorem check_silent (rc : Int) : Program.Always Silent (check rc) :=
  .onlyIf Silent.refl fun _ => .fail Silent.refl _

theorem saveRdeps_silent (host : Host) (gen : String) : Program.Always Silent (saveRdeps host gen) := by
  refine .bind Silent.trans (.read Silent.refl) fun s => ?_
  cases s.files.deps gen with
  | none => exact .pure Silent.refl _
  | some text =>
    refine .bind Silent.trans (write_silent _) fun _ => .ite (fun _ => ?_) fun _ => .pure Silent.refl _
    exact .bind Silent.trans (write_silent _) fun _ => .pure Silent.refl _

theorem saveGen_silent (host : Host) (gen : String) : Program.Always Silent (saveGen host gen) := by
  refine .ite (fun _ => ?_) fun _ => .pure Silent.refl _
  refine .bind Silent.trans (write_silent _) fun _ => .bind Silent.trans (write_silent _) fun _ => ?_
  exact .pure Silent.refl _

/-- Only the activation itself issues commands for the next generation. -/
theorem enterNext_events (host : Host) (trees : String → Tree) (next : String) (s : Proc) :
    events (enterNext host trees next s).2.log = events (activate host (trees next) next s).2.log := by
  refine Program.bind_state (P := fun t : Proc => events t.log = events (activate host (trees next) next s).2.log) rfl ?_
  intro rc t ran
  have silent : Program.Always Silent (do
      check rc
      let s ← Program.read
      Program.onlyIf (s.dep ≠ 0) do check (← saveRdeps host next)
      check (← saveGen host next)
      if host.next then write .removeNext else Program.fail (.exit 1) : Net Unit) := by
    refine .bind Silent.trans (check_silent rc) fun _ => .bind Silent.trans (.read Silent.refl) fun s => ?_
    refine .bind Silent.trans (.onlyIf Silent.refl fun _ => ?_) fun _ => ?_
    · exact .bind Silent.trans (saveRdeps_silent host next) check_silent
    · refine .bind Silent.trans (saveGen_silent host next) fun rc => .bind Silent.trans (check_silent rc) fun _ => ?_
      exact .ite (fun _ => write_silent _) fun _ => .fail Silent.refl _
  rw [ran]
  exact silent t

/-- The tear-down is taken for a success unless an action file fails to close. -/
theorem leaveCurrent_eq (current : loadGen s.files.gen = .ok m) : leaveCurrent trees s =
    (if (trees m).exitRc (visits s.files m) = 0 then .ok () else .error (.exit 1), (deactivate (trees m) m s).2) := by
  have reading : (Program.read : Net Proc) s = (.ok s, s) := rfl
  rw [leaveCurrent, Program.bind_eq reading]
  simp only [current]
  rw [Program.bind_eq (deactivate_eq (trees m) m s), deactivate_eq, check, Program.onlyIf]
  by_cases closes : (trees m).exitRc (visits s.files m) = 0
  · rw [if_pos closes, if_neg (by simpa using closes)]
    rfl
  · rw [if_neg closes, if_pos (by simpa using closes)]
    rfl

theorem activateNext_events {host : Host} {trees : String → Tree} {files : Files} {m n : String}
    (pipes : host.pipes = true) (current : loadGen files.gen = .ok m) (loads : loadGen files.next = .ok n) :
    events (activateNext host trees (start [] files)).2.log = exitEvents (trees m) (visits files m) ++
      if (trees m).exitRc (visits files m) = 0 then initEvents (trees n) host.stack else [] := by
  have torn : events (deactivate (trees m) m (start [] files)).2.log = exitEvents (trees m) (visits files m) :=
    deactivate_events (trees m) m (start [] files)
  have left : leaveCurrent trees (start [] files) = (if (trees m).exitRc (visits files m) = 0 then .ok () else .error (.exit 1),
      (deactivate (trees m) m (start [] files)).2) := leaveCurrent_eq current
  have idle : (deactivate (trees m) m (start [] files)).2.ifaceList = [] := by
    rw [deactivate_eq]
    rfl
  rw [activateNext_eq pipes loads]
  by_cases closes : (trees m).exitRc (visits files m) = 0
  · rw [if_pos closes] at left ⊢
    rw [Program.bind_eq left, enterNext_events, activate_events _ idle, torn]
  · rw [if_neg closes] at left ⊢
    rw [Program.bind_error left, torn, List.append_nil]

theorem commands_pairwise (tree : Tree) (order : List String) (action : Action) :
    (tree.commands order action).Pairwise fun c d => c.rank ≤ d.rank := by
  apply List.pairwise_of_forall_mem_list
  intro c first d second
  rw [commands_rank first, commands_rank second]

/-- Commands of a higher rank meet those of a lower one only if there are both. -/
theorem lower_iff {cs ds : List Command} (lower : ∀ c ∈ cs, ∀ d ∈ ds, d.rank < c.rank) :
    (∀ c ∈ cs, ∀ d ∈ ds, c.rank ≤ d.rank) ↔ ds = [] ∨ cs = [] := by
  constructor
  · intro quiet
    by_contra both
    rw [not_or] at both
    obtain ⟨d, there⟩ := List.exists_mem_of_ne_nil ds both.1
    obtain ⟨c, here⟩ := List.exists_mem_of_ne_nil cs both.2
    exact absurd (quiet c here d there) (Nat.not_le.mpr (lower c here d there))
  · rintro (rfl | rfl)
    · simp
    · simp

theorem commands_lower {other : Tree} (less : (Command.mk a "" "").rank < (Command.mk b "" "").rank) :
    ∀ c ∈ tree.commands order b, ∀ d ∈ other.commands order' a, d.rank < c.rank := by
  intro c first d second
  rw [commands_rank first, commands_rank second]
  exact less

/-- What may wait in the pipes once a generation has been torn down. -/
def waiting (tree : Tree) (order : List String) : Streams.Buffers Pipe Command
  | .ip => tree.commands order .exitIp
  | .bridge => tree.commands order .exitBridge

theorem forall_pipe {P : Pipe → Prop} : (∀ q, P q) ↔ P .bridge ∧ P .ip := by
  constructor
  · exact fun every => ⟨every .bridge, every .ip⟩
  · rintro ⟨bridge, ip⟩ (_ | _)
    · exact ip
    · exact bridge

/-- Scripts meet what waits in either pipe. -/
theorem directs_iff (cs : List Command) {b : Streams.Buffers Pipe Command} (lower : ∀ c ∈ cs, ∀ q, ∀ d ∈ b q, d.rank < c.rank) :
    (∀ c ∈ cs, ∀ q, ∀ d ∈ b q, c.rank ≤ d.rank) ↔ b .bridge = [] ∧ b .ip = [] ∨ cs = [] := by
  have bridge := lower_iff fun c here => lower c here .bridge
  have ip := lower_iff fun c here => lower c here .ip
  simp only [forall_pipe, imp_and, forall_and, bridge, ip, or_comm (b := cs = []), or_and_left]

/-- Commands for ip meet what waits for bridge. -/
theorem puts_ip_iff (cs : List Command) {b : Streams.Buffers Pipe Command} (lower : ∀ c ∈ cs, ∀ d ∈ b .bridge, d.rank < c.rank) :
    (∀ c ∈ cs, ∀ q, q ≠ .ip → ∀ d ∈ b q, c.rank ≤ d.rank) ↔ b .bridge = [] ∨ cs = [] := by
  rw [← lower_iff lower]
  simp only [forall_pipe]
  simp

theorem exit_quiet_iff (tree : Tree) (order : List String) (rest : List Event) :
    Streams.Quiet Command.rank (exitEvents tree order ++ rest) (fun _ => []) ↔
      (tree.commands order .exitBridge = [] ∨ tree.commands order .exitIp = []) ∧
      (tree.commands order .exitBridge = [] ∧ tree.commands order .exitIp = [] ∨ tree.commands order .exitEthtool = []) ∧
      Streams.Quiet Command.rank rest (waiting tree order) := by
  have buffers : Function.update (Function.update (fun _ => []) Pipe.bridge ([] ++ tree.commands order .exitBridge)) .ip
      (Function.update (fun _ => []) Pipe.bridge ([] ++ tree.commands order .exitBridge) .ip ++
        tree.commands order .exitIp) = waiting tree order := by
    funext p
    cases p with
    | ip => rfl
    | bridge => rfl
  rw [exitEvents, List.append_assoc, List.append_assoc, Streams.quiet_puts, Streams.quiet_puts, Streams.quiet_directs, buffers]
  have first : (∀ c ∈ tree.commands order .exitBridge, ∀ q : Pipe, q ≠ .bridge → ∀ d ∈ ([] : List Command), c.rank ≤ d.rank) ↔ True := by
    simp
  have second := puts_ip_iff (tree.commands order .exitIp)
    (b := Function.update (fun _ => []) Pipe.bridge ([] ++ tree.commands order .exitBridge)) (commands_lower (by decide))
  have third := directs_iff (tree.commands order .exitEthtool) (b := waiting tree order) (by
    intro c here q
    cases q with
    | ip => exact commands_lower (by decide) c here
    | bridge => exact commands_lower (by decide) c here)
  rw [first, second, third, true_and]
  rfl

theorem init_quiet_iff (tree : Tree) (order : List String) (next : Tree) (stack : Nat) :
    Streams.Quiet Command.rank (initEvents next stack) (waiting tree order) ↔
      (tree.commands order .exitBridge = [] ∧ tree.commands order .exitIp = [] ∨
        next.commands (next.order stack) .initEthtool = []) ∧
      ((next.walk stack).2 = true →
        tree.commands order .exitBridge = [] ∨ next.commands (next.order stack) .initIp = []) := by
  have scripts := directs_iff (next.commands (next.order stack) .initEthtool) (b := waiting tree order) (by
    intro c here q
    cases q with
    | ip => exact commands_lower (by decide) c here
    | bridge => exact commands_lower (by decide) c here)
  rw [initEvents, Streams.quiet_directs, scripts]
  refine and_congr_right fun _ => ?_
  by_cases complete : (next.walk stack).2 = true
  · have ip := puts_ip_iff (next.commands (next.order stack) .initIp) (b := waiting tree order)
      (commands_lower (by decide))
    have rest (b : Streams.Buffers Pipe Command) : Streams.Quiet Command.rank (.close .ip ::
        ((next.commands (next.order stack) .initBridge).map (.put .bridge) ++ [.close .bridge])) b := by
      rw [Streams.Quiet, Streams.quiet_puts]
      refine ⟨?_, trivial⟩
      intro c _ q other d there
      cases q with
      | ip => simp at there
      | bridge => exact absurd rfl other
    rw [if_pos complete, List.append_assoc, List.append_assoc, Streams.quiet_puts, ip]
    simp only [complete, true_imp_iff]
    exact and_iff_left (rest _)
  · rw [if_neg complete]
    simp [complete, Streams.Quiet]

/-- The commands are issued in the order of the tables. -/
theorem issued_pairwise (tree : Tree) (order : List String) (next : Tree) (stack : Nat) (enters : Bool) :
    (Streams.issued (exitEvents tree order ++ if enters then initEvents next stack else [])).Pairwise
      fun c d => c.rank ≤ d.rank := by
  -- every command belongs to a block of one action, and the blocks come in the order of their ranks
  have blocks : ∀ l : List (Tree × List String × Action),
      (l.Pairwise fun x y => (Command.mk x.2.2 "" "").rank ≤ (Command.mk y.2.2 "" "").rank) →
        (l.flatMap fun x => x.1.commands x.2.1 x.2.2).Pairwise fun c d => c.rank ≤ d.rank := by
    intro l sorted
    rw [List.pairwise_flatMap]
    refine ⟨fun x _ => commands_pairwise _ _ _, sorted.imp fun {x y} less c first d second => ?_⟩
    rw [commands_rank first, commands_rank second]
    exact less
  rw [exitEvents, List.append_assoc, List.append_assoc, Streams.issued_puts, Streams.issued_puts, Streams.issued_directs]
  cases enters with
  | false =>
    have sorted := blocks [(tree, order, .exitBridge), (tree, order, .exitIp), (tree, order, .exitEthtool)]
      (by simp [Command.rank])
    simpa [Streams.issued] using sorted
  | true =>
    rw [if_pos rfl, initEvents, Streams.issued_directs]
    by_cases complete : (next.walk stack).2 = true
    · have sorted := blocks [(tree, order, .exitBridge), (tree, order, .exitIp), (tree, order, .exitEthtool),
        (next, next.order stack, .initEthtool), (next, next.order stack, .initIp), (next, next.order stack, .initBridge)]
        (by simp [Command.rank])
      rw [if_pos complete, List.append_assoc, List.append_assoc, Streams.issued_puts, List.singleton_append, Streams.issued,
        Streams.issued_puts]
      simpa [Streams.issued] using sorted
    · have sorted := blocks [(tree, order, .exitBridge), (tree, order, .exitIp), (tree, order, .exitEthtool),
        (next, next.order stack, .initEthtool)] (by simp [Command.rank])
      rw [if_neg complete]
      simpa [Streams.issued] using sorted

/-- Which commands there may be together: none that waits in a pipe while one of a
later action is issued elsewhere. -/
def Calm (current : Tree) (order : List String) (next : Tree) (stack : Nat) : Prop :=
  (current.commands order .exitBridge = [] ∨ current.commands order .exitIp = []) ∧
  (current.commands order .exitBridge = [] ∧ current.commands order .exitIp = [] ∨
    current.commands order .exitEthtool = []) ∧
  (current.exitRc order = 0 →
    (current.commands order .exitBridge = [] ∧ current.commands order .exitIp = [] ∨
      next.commands (next.order stack) .initEthtool = []) ∧
    ((next.walk stack).2 = true →
      current.commands order .exitBridge = [] ∨ next.commands (next.order stack) .initIp = []))

instance (current : Tree) (order : List String) (next : Tree) (stack : Nat) : Decidable (Calm current order next stack) :=
  inferInstanceAs (Decidable (_ ∧ _ ∧ (_ → _)))

/-- The commands take effect in the order of the action tables, whenever the pipes are
flushed, if and only if none of them has to wait for another to be overtaken. -/
theorem effects_in_order_iff {host : Host} {trees : String → Tree} {files : Files} {m n : String}
    (pipes : host.pipes = true) (current : loadGen files.gen = .ok m) (loads : loadGen files.next = .ok n) :
    (∀ out, Streams.Effects (events (activateNext host trees (start [] files)).2.log) (fun _ => []) out →
      out.Pairwise fun c d => c.rank ≤ d.rank) ↔ Calm (trees m) (visits files m) (trees n) host.stack := by
  have all : ∀ p : Pipe, p ∈ [Pipe.ip, .bridge] := forall_pipe.mpr (by decide)
  rw [activateNext_events pipes current loads]
  by_cases closes : (trees m).exitRc (visits files m) = 0
  · have program := issued_pairwise (trees m) (visits files m) (trees n) host.stack true
    rw [if_pos rfl] at program
    rw [if_pos closes, Streams.ordered_iff_quiet all program, exit_quiet_iff, init_quiet_iff, Calm]
    simp only [closes, true_imp_iff]
  · have program := issued_pairwise (trees m) (visits files m) (trees n) host.stack false
    rw [if_neg (by simp)] at program
    rw [if_neg closes, Streams.ordered_iff_quiet all program, exit_quiet_iff, Calm]
    simp [closes, Streams.Quiet]

/-- A port that leaves its bridge. -/
def leavingTree : Tree where
  entries := ["eth0"]
  links := fun _ => []
  action := fun i action =>
    match action with
    | .exitBridge => .file ⟨("vlan del dev " ++ i ++ " vid 1").toList, none⟩
    | .exitIp => .file ⟨("link set nomaster dev " ++ i).toList, none⟩
    | _ => .missing
  distinct := List.nodup_singleton _
  named := by decide

/-- The files once generation 0 has been brought up, and 1 is next. -/
def runningFiles : Files := ⟨fun _ => none, fun _ => some (unlines ["eth0"]), some (unlines ["0"]), some (unlines ["1"])⟩

theorem effects_in_order_iff_lag : loadGen runningFiles.next = .ok "1" ∧
    ∀ out, Streams.Effects (events (activateNext allGranted (fun _ => lagTree) (start [] runningFiles)).2.log) (fun _ => []) out →
      out.Pairwise fun c d => c.rank ≤ d.rank := by
  have pipes : allGranted.pipes = true := rfl
  have current : loadGen runningFiles.gen = .ok "0" := by decide +kernel
  have loads : loadGen runningFiles.next = .ok "1" := by decide +kernel
  have calm : Calm lagTree (visits runningFiles "0") lagTree allGranted.stack := by decide +kernel
  refine ⟨loads, ?_⟩
  rw [effects_in_order_iff pipes current loads]
  exact calm

/-- The port may leave the bridge before its VLAN is taken off it. -/
theorem bridge_commands_late : ∃ out,
    Streams.Effects (events (activateNext allGranted (fun _ => leavingTree) (start [] runningFiles)).2.log) (fun _ => []) out ∧
      ¬out.Pairwise fun c d => c.rank ≤ d.rank := by
  have pipes : allGranted.pipes = true := rfl
  have current : loadGen runningFiles.gen = .ok "0" := by decide +kernel
  have loads : loadGen runningFiles.next = .ok "1" := by decide +kernel
  have both : ¬(leavingTree.commands (visits runningFiles "0") .exitBridge = [] ∨
      leavingTree.commands (visits runningFiles "0") .exitIp = []) := by decide +kernel
  have all : ∀ p : Pipe, p ∈ [Pipe.ip, .bridge] := forall_pipe.mpr (by decide)
  rw [activateNext_events pipes current loads]
  generalize (if leavingTree.exitRc (visits runningFiles "0") = 0 then initEvents leavingTree allGranted.stack else []) = rest
  by_contra none
  have ordered : ∀ out, Streams.Effects (exitEvents leavingTree (visits runningFiles "0") ++ rest) (fun _ => []) out →
      out.Pairwise fun c d => c.rank ≤ d.rank := by
    intro out effects
    by_contra wrong
    exact none ⟨out, effects, wrong⟩
  exact both ((exit_quiet_iff _ _ _).mp (Streams.quiet_of_ordered all ordered)).1

end NetTool
