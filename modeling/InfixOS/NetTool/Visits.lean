import InfixOS.Graph.Traversal
import InfixOS.NetTool.Main

/-! The recursion `deps` does the same for every interface it leaves, in the order of
the walk of the links. Each function of the tool gets one equation here. -/
namespace NetTool
open Exec Posix Graph

variable {host : Host} {tree : Tree} {gen : String} {action : Action} {s : Proc}

def Proc.logs (s : Proc) (entries : List Log) : Proc := { s with log := s.log ++ entries }

@[simp] theorem logs_nil (s : Proc) : s.logs [] = s := by simp [Proc.logs]

@[simp] theorem logs_logs (s : Proc) (first second : List Log) : (s.logs first).logs second = s.logs (first ++ second) := by
  simp [Proc.logs]

theorem record_eq (entry : Log) (s : Proc) : record entry s = (.ok (), s.logs [entry]) := rfl

theorem forEach_record (xs : List β) (entry : β → Log) (s : Proc) :
    Program.forEach xs (fun x => record (entry x)) s = (.ok (), s.logs (xs.map entry)) := by
  induction xs generalizing s with
  | nil => simp [Program.forEach, Program.ret]
  | cons x rest ih =>
    change (record (entry x) >>= fun _ => Program.forEach rest fun x => record (entry x)) s = _
    rw [Program.bind_eq (record_eq (entry x) s), ih, logs_logs]
    rfl

/-- What the commands of a file leave in the log. -/
def fileLog (action : Action) (owner : String) (file : File) : List Log :=
  match pipep action.name with
  | some pipe =>
    if file.fault = some .open then []
    else (fgetsLines 256 file.text).map fun line => .event (.put pipe ⟨action, owner, line⟩)
  | none => [.event (.direct ⟨action, owner, action.name⟩)]

def fileRc (action : Action) (file : File) : Int :=
  if (pipep action.name).isSome ∧ file.fault = some .close then -1 else 0

theorem run_eq (action : Action) (owner : String) (file : File) (s : Proc) :
    run action owner file s = (.ok (fileRc action file), s.logs (.run action owner :: fileLog action owner file)) := by
  rw [run, Program.bind_eq (record_eq _ s), fileRc, fileLog]
  cases pipep action.name with
  | none => simp [Program.bind_eq (record_eq _ _), pure, Program.ret]
  | some pipe =>
    simp only [pipeit]
    by_cases unopened : file.fault = some .open
    · simp [unopened, pure, Program.ret]
    · simp only [unopened, if_false]
      refine (Program.bind_eq (forEach_record _ _ _) _).trans ?_
      simp [pure, Program.ret]

/-- What the action of an interface leaves in the log. -/
def entryLog (action : Action) (owner : String) : Entry → List Log
  | .file file => .run action owner :: fileLog action owner file
  | _ => []

def entryRc (action : Action) : Entry → Int
  | .missing => 0
  | .unresolved => -1
  | .file file => fileRc action file

/-- The state after `act`. -/
def acted (tree : Tree) (action : Action) (s : Proc) (ifname : String) : Proc :=
  if ifname ∈ s.ifaceList then s
  else { s.logs (entryLog action ifname (tree.action ifname action)) with
    ifaceList := s.ifaceList ++ [copied ifname] }

def actRc (tree : Tree) (action : Action) (s : Proc) (ifname : String) : Int :=
  if ifname ∈ s.ifaceList then 0 else entryRc action (tree.action ifname action)

theorem attempt_eq (action : Action) (ifname : String) (entry : Entry) (s : Proc) :
    attempt action ifname entry s = (.ok (entryRc action entry), s.logs (entryLog action ifname entry)) := by
  cases entry with
  | missing => exact Prod.ext rfl (logs_nil s).symm
  | unresolved => exact Prod.ext rfl (logs_nil s).symm
  | file file => exact run_eq action ifname file s

theorem act_eq (tree : Tree) (action : Action) (ifname : String) (s : Proc) :
    act tree action ifname s = (.ok (actRc tree action s ifname), acted tree action s ifname) := by
  have found : findif ifname s = (.ok (s.ifaceList.contains ifname), s) := rfl
  rw [act, Program.bind_eq found, actRc, acted]
  by_cases there : ifname ∈ s.ifaceList
  · simp [there, pure, Program.ret]
  · simp only [there, List.contains_eq_mem, decide_false, Bool.false_eq_true, if_false]
    exact Program.bind_eq (attempt_eq action ifname _ s) _

def listed (files : Files) (gen : String) : List String := fgetsLines 20 ((files.deps gen).getD [])

/-- The state after `savedep`. -/
def saved (host : Host) (gen : String) (s : Proc) (ifname : String) : Proc :=
  if host.deps && !(listed s.files gen).contains ifname then
    { s with
      dep := s.dep + 1
      files := (Write.deps gen ((s.files.deps gen).getD [] ++ unlines [ifname])).apply s.files
      log := s.log ++ [.write (.deps gen ((s.files.deps gen).getD [] ++ unlines [ifname]))] }
  else s

theorem savedep_eq (host : Host) (gen ifname : String) (s : Proc) :
    savedep host gen ifname s = (.ok (), saved host gen s ifname) := by
  have reading : (Program.read : Net Proc) s = (.ok s, s) := rfl
  rw [savedep, Program.bind_eq reading, saved, listed]
  cases host.deps && !(fgetsLines 20 ((s.files.deps gen).getD [])).contains ifname with
  | true => rfl
  | false => rfl

@[simp] theorem saved_ifaceList (host : Host) (gen : String) (s : Proc) (ifname : String) :
    (saved host gen s ifname).ifaceList = s.ifaceList := by
  rw [saved]
  split
  · rfl
  · rfl

/-- What the recursion does when it leaves an interface. -/
def leave (host : Host) (tree : Tree) (gen : String) (action : Action) (s : Proc) (ifname : String) : Proc :=
  acted tree action (saved host gen s ifname) ifname

/-- A walk that comes to its end, or the end of the process. -/
def walked (host : Host) (tree : Tree) (gen : String) (action : Action) (w : List String × Bool) (a : β) (s : Proc) :
    Except Stop β × Proc :=
  if w.2 then (.ok a, w.1.foldl (leave host tree gen action) s)
  else (.error .killed, (w.1.foldl (leave host tree gen action) s).logs [.event .crash])

/-- The end of a process whose stack is used up. -/
def kill (s : Proc) : Stop × Proc := (.killed, s.logs [.event .crash])

theorem walked_eq (host : Host) (tree : Tree) (gen : String) (action : Action) (w : List String × Bool) (a : β) (s : Proc) :
    walked host tree gen action w a s = walkedBy (leave host tree gen action) kill w a s := rfl

theorem leave_eq (host : Host) (tree : Tree) (gen : String) (action : Action) (ifname : String) (s : Proc) :
    (do savedep host gen ifname; act tree action ifname : Net Int) s =
      (.ok (actRc tree action s ifname), leave host tree gen action s ifname) := by
  rw [Program.bind_eq (savedep_eq host gen ifname s), act_eq, actRc, actRc, saved_ifaceList]
  rfl

/-- The result of `deps`: that of the interface itself, which comes last. -/
def depsRc (host : Host) (tree : Tree) (gen : String) (action : Action) (stack : Nat) (s : Proc) (ifname : String) : Int :=
  actRc tree action ((walk tree.needs stack ifname).1.dropLast.foldl (leave host tree gen action) s) ifname

theorem deps_traverse (host : Host) (tree : Tree) (gen : String) (action : Action) (stack : Nat) (ifname : String) :
    deps host tree gen action stack ifname =
      Graph.traverse tree.needs (fun i => do savedep host gen i; act tree action i)
        (do record (.event .crash); Program.fail .killed) stack ifname := by
  induction stack generalizing ifname with
  | zero => rfl
  | succ stack ih =>
    rw [deps, Graph.traverse]
    simp only [ih]

theorem deps_eq (host : Host) (tree : Tree) (gen : String) (action : Action) (stack : Nat) (ifname : String) (s : Proc) :
    deps host tree gen action stack ifname s =
      walked host tree gen action (walk tree.needs stack ifname) (depsRc host tree gen action stack s ifname) s := by
  have stops (s : Proc) : (do record (.event .crash); Program.fail .killed : Net Int) s = (.error (kill s).1, (kill s).2) := rfl
  rw [deps_traverse, walked_eq]
  exact traverse_eq (leave_eq host tree gen action) stops stack ifname s

/-- What the calls of `deps` from `iter` return, added up. -/
def tally (host : Host) (tree : Tree) (gen : String) (action : Action) (stack : Nat) : List String → Proc → Int
  | [], _ => 0
  | ifname :: rest, s =>
    depsRc host tree gen action stack s ifname +
      tally host tree gen action stack rest ((walk tree.needs stack ifname).1.foldl (leave host tree gen action) s)

theorem sumOver_deps (host : Host) (tree : Tree) (gen : String) (action : Action) (stack : Nat) (tops : List String)
    (s : Proc) : Program.sumOver tops (deps host tree gen action stack) s =
      walked host tree gen action (walkAll (walk tree.needs stack) tops) (tally host tree gen action stack tops s) s := by
  induction tops generalizing s with
  | nil => rfl
  | cons ifname rest ih =>
    have first := deps_eq host tree gen action stack ifname s
    have later := ih ((walk tree.needs stack ifname).1.foldl (leave host tree gen action) s)
    rw [walked_eq] at first later ⊢
    exact walkedBy_bind first (walkedBy_map later _)

end NetTool
