import InfixOS.Posix.Find
import InfixOS.Posix.Words

/-! The dagger tool, board/common/rootfs/sbin/dagger. Paths are relative to its
base directory. Messages to the system log and the log files next to the
scripts are not part of the tree; the exit status that goes into such a log is
part of the trace. A script acts on the rest of the system only. -/
namespace Dagger
open Posix Posix.FileTree

/-- A piece of text: a printed number, a line, or what a generator wrote. -/
inductive Item (σ : Type) where
  | num (n : Int)
  | line (text : String)
  | out (piece : σ)
  deriving DecidableEq, Repr

abbrev Base (σ : Type) := FileTree (Item σ)

variable {σ : Type}

def Item.text [ToString σ] : Item σ → String
  | .num n => toString n
  | .line text => text
  | .out piece => toString piece

def catWord [ToString σ] (t : Base σ) (p : Path) : String := "\n".intercalate ((t.cat p).map Item.text)

/-- What the tool depends on besides its base directory: the shell that runs
it, the path of the base directory, the order directories are read in, and the
exit status of every command line. -/
structure Env where
  sh : Shell
  basedir : String
  enum : Enumeration
  exit : List String → Nat

def Env.path (env : Env) (p : Path) : String := p.foldl (fun s c => s ++ "/" ++ c) env.basedir

abbrev Trace := List (List String × Nat)

structure Outcome (σ : Type) where
  tree : Base σ
  ok : Bool
  trace : Trace

/-- `generate_order`. The second file is the first one with its lines reversed. -/
def generateOrder (enum : Enumeration) (t : Base σ) (gen : Path) : Base σ × Bool :=
  if t.isFile (gen ++ ["bottom-up-order"]) && t.isFile (gen ++ ["top-down-order"]) then (t, true)
  else
    let order := Graph.unseen [] (findDepth enum t (gen ++ ["dag"]))
    match t.redirect (gen ++ ["bottom-up-order"]) (order.map .line) with
    | (t, true) =>
      t.redirect (gen ++ ["top-down-order"]) (t.cat (gen ++ ["bottom-up-order"])).reverse
    | (t, false) => (t, false)

def orderFile (t : Base σ) (gen : Path) (action : String) : Path :=
  let file := gen ++ ["action", action, "order"]
  if t.isFile file || t.isDir file then file else gen ++ ["bottom-up-order"]

/-- The words of `for node in $order`. -/
def orderWords [ToString σ] (env : Env) (t : Base σ) (gen : Path) (action : String) : List String :=
  let actdir := gen ++ ["action", action]
  let order := (t.cat (orderFile t gen action)).flatMap fun item => env.sh.expand item.text
  (if t.isDir (actdir ++ ["@pre"]) then ["@pre"] else []) ++ order ++
    (if t.isDir (actdir ++ ["@post"]) then ["@post"] else [])

/-- The lines of `find "$actdir/$node" -type f -executable | sort`. -/
def scripts (env : Env) (t : Base σ) (gen : Path) (action node : String) : List String :=
  sort ((t.executables (gen ++ ["action", action, node])).map env.path)

/-- The words of `for work in $(find .. | sort)`. -/
def works (env : Env) (t : Base σ) (gen : Path) (action node : String) : List String :=
  (scripts env t gen action node).flatMap env.sh.expand

/-- The inner loop. `$work` is unquoted as well. -/
def runWorks (env : Env) : List String → Trace × Bool
  | [] => ([], true)
  | work :: rest =>
    let argv := env.sh.expand work
    let code := env.exit argv
    if code = 0 then
      let (trace, ok) := runWorks env rest
      ((argv, code) :: trace, ok)
    else ([(argv, code)], false)

def runNodes (env : Env) (t : Base σ) (gen : Path) (action : String) :
    List String → Trace × Bool
  | [] => ([], true)
  | node :: rest =>
    match runWorks env (works env t gen action node) with
    | (first, true) =>
      let (trace, ok) := runNodes env t gen action rest
      (first ++ trace, ok)
    | (first, false) => (first, false)

def actionExec [ToString σ] (env : Env) (t : Base σ) (action : String) (gen : Path) : Outcome σ :=
  match generateOrder env.enum t gen with
  | (t, true) =>
    let (trace, ok) := runNodes env t gen action (orderWords env t gen action)
    ⟨t, ok, trace⟩
  | (t, false) => ⟨t, false, []⟩

/-- `do_abandon`, at the time `stamp`. -/
def doAbandon [ToString σ] (stamp : String) (t : Base σ) : Base σ × Bool :=
  let next := catWord t ["next"]
  if next ≠ "" ∧ t.isDir [next] then
    match t.mv [next] [next ++ "-ABANDONED-" ++ stamp] with
    | (t, true) => t.rm ["next"]
    | (t, false) => (t, false)
  else (t, false)

def exitPhase [ToString σ] (env : Env) (t : Base σ) (current : String) : Outcome σ :=
  if current ≠ "" then actionExec env t "exit" [current] else ⟨t, true, []⟩

def doEvolve [ToString σ] (env : Env) (t : Base σ) : Outcome σ :=
  let current := catWord t ["current"]
  let next := catWord t ["next"]
  if current ≠ "" ∧ t.isDir [current] = false then ⟨t, false, []⟩
  else if next = "" ∨ t.isDir [next] = false then ⟨t, false, []⟩
  else
    let exit := exitPhase env t current
    if exit.ok then
      let init := actionExec env exit.tree "init" [next]
      if init.ok then
        let (t, ok) := init.tree.mv ["next"] ["current"]
        ⟨t, ok, exit.trace ++ init.trace⟩
      else ⟨init.tree, false, exit.trace ++ init.trace⟩
    else exit

end Dagger
