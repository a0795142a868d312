import InfixOS.Dagger.Tool

/-! The library side of dagger, src/confd/src/confd/dagger.c. The path of the base
directory and the names of nodes go unquoted into command lines and stand for words that
the shell takes as they are written. A script's name goes to fopen only; it stands for
the rest of a file name. -/
namespace Dagger
open Posix Posix.FileTree

variable {σ : Type}

/-- `struct dagger`. The stream is represented by the file it is open on. -/
structure Handle where
  current : Int
  next : Int
  nextFp : Option Path
  path : String
  deriving DecidableEq, Repr

/-- `memset(d, 0, sizeof(*d))`. -/
def Handle.zero : Handle := ⟨0, 0, none, ""⟩

inductive Errno where
  | ERANGE
  | EUNATCH
  | other
  deriving DecidableEq, Repr

/-- The directory name `%d` of a generation. -/
def genName (n : Int) : String := toString n

def digit (n : Nat) : Char := Char.ofNat (48 + n % 10)

/-- The file name `%02u-%s` of a script. -/
def scriptName (prio : Nat) (script : String) : String :=
  String.ofList (digit (prio / 10) :: digit prio :: '-' :: script.toList)

/-- `rindex(script, '.')`, without the dot. -/
def extension (script : String) : Option String :=
  if '.' ∈ script.toList then
    some (String.ofList (script.toList.reverse.takeWhile (· ≠ '.')).reverse)
  else none

def interpreter (script : String) : List (Item σ) :=
  match extension script with
  | some "sh" => [.line "#!/bin/sh", .line ""]
  | some "bridge" => [.line "#!/sbin/bridge -batch", .line ""]
  | some "ip" => [.line "#!/sbin/ip -batch", .line ""]
  | some "sysctl" => [.line "#!/sbin/sysctl -p", .line ""]
  | _ => []

def scriptPath (gen : Int) (action node : String) (prio : Nat) (script : String) : Path :=
  [genName gen, "action", action, node, scriptName prio script]

/-- `dagger_fopen`. -/
def daggerFopen (t : Base σ) (gen : Int) (action node : String) (prio : Nat) (script : String) :
    Base σ × Except Errno Path :=
  if prio > 99 then (t, .error .ERANGE)
  else match t.mkdirP [genName gen, "action", action, node] with
    | (t, false) => (t, .error .other)
    | (t, true) =>
      let file := scriptPath gen action node prio script
      match t.openWrite file with
      | (t, false) => (t, .error .other)
      | (t, true) => ((t.append file (interpreter script)).chmodX file, .ok file)

def daggerFopenNext (d : Handle) (t : Base σ) (action node : String) (prio : Nat)
    (script : String) : Base σ × Except Errno Path :=
  daggerFopen t d.next action node prio script

def daggerFopenCurrent (d : Handle) (t : Base σ) (action node : String) (prio : Nat)
    (script : String) : Base σ × Except Errno Path :=
  if d.current < 0 then (t, .error .EUNATCH) else daggerFopen t d.current action node prio script

def daggerAddDep (d : Handle) (t : Base σ) (depender dependee : String) : Base σ × Bool :=
  t.lnS ["..", dependee] [genName d.next, "dag", depender]

def daggerAddNode (d : Handle) (t : Base σ) (node : String) : Base σ × Bool :=
  t.mkdirP [genName d.next, "dag", node]

/-- Both commands print the generation into the open file before they run the
tool. Without a path the tool would take its command for the base directory
and stop at its usage message. -/
def announce (d : Handle) (t : Base σ) : Base σ :=
  match d.nextFp with
  | some file => t.append file [.num d.next]
  | none => t

def daggerAbandon [ToString σ] (stamp : String) (d : Handle) (t : Base σ) : Base σ × Bool :=
  if d.path = "" then (announce d t, false) else doAbandon stamp (announce d t)

def daggerEvolve [ToString σ] (env : Env) (d : Handle) (t : Base σ) : Outcome σ :=
  if d.path = "" then ⟨announce d t, false, []⟩ else doEvolve env (announce d t)

def daggerEvolveOrAbandon [ToString σ] (env : Env) (stamp : String) (d : Handle) (t : Base σ) : Outcome σ :=
  let evolved := daggerEvolve env d t
  if evolved.ok then evolved
  else if d.path = "" then evolved
  else { evolved with tree := (doAbandon stamp evolved.tree).1 }

def daggerSkipIface (d : Handle) (t : Base σ) (ifname : String) : Base σ :=
  (t.touch [genName d.next, "skip", ifname]).1

def daggerShouldSkip (d : Handle) (t : Base σ) (ifname : String) : Bool :=
  t.isFile [genName d.next, "skip", ifname]

/-- `readdf`, which takes the number on the first line of a file. -/
def readdf (t : Base σ) (p : Path) : Option Int :=
  match t.cat p with
  | .num n :: _ => some n
  | _ :: _ => some 0
  | [] => none

/-- The file-system steps of `dagger_claim`, each of which may also fail for a
reason that is not in the tree, such as a full file system. -/
inductive ClaimStep where
  | mkdirBase
  | openNext
  | mkdirExit
  | linkExit
  | mkdirInit
  | mkdirSkip
  | linkInit
  deriving DecidableEq, Repr

abbrev Faults := ClaimStep → Bool

def attempt (fault : Bool) (t : Base σ) (step : Base σ → Base σ × Bool) : Base σ × Bool :=
  if fault then (t, false) else step t

/-- `a && b`. -/
def andThen (first : Base σ × Bool) (second : Base σ → Base σ × Bool) : Base σ × Bool :=
  match first with
  | (t, true) => second t
  | (t, false) => (t, false)

/-- Prepare the exit action of the current generation. -/
def layoutExit (faults : Faults) (current : Int) (t : Base σ) : Base σ × Bool :=
  andThen (attempt (faults .mkdirExit) t (·.mkdirP [genName current, "action", "exit"])) fun t =>
    attempt (faults .linkExit) t
      (·.lnS ["..", "..", "top-down-order"] [genName current, "action", "exit", "order"])

/-- Prepare the directories of the next generation. -/
def layoutInit (faults : Faults) (next : Int) (t : Base σ) : Base σ × Bool :=
  andThen (attempt (faults .mkdirInit) t (·.mkdirP [genName next, "action", "init"])) fun t =>
    andThen (attempt (faults .mkdirSkip) t (·.mkdirP [genName next, "skip"])) fun t =>
      attempt (faults .linkInit) t
        (·.lnS ["..", "..", "bottom-up-order"] [genName next, "action", "init", "order"])

/-- What a call of `dagger_claim` leaves behind. -/
structure Claimed (σ : Type) where
  tree : Base σ
  handle : Handle
  ok : Bool

/-- `dagger_claim`, for the base directory `path` that the tree describes. The
caller's struct is cleared first, whatever it held. -/
def daggerClaim (faults : Faults) (path : String) (_d : Handle) (t : Base σ) : Claimed σ :=
  match attempt (faults .mkdirBase) t (·.mkdirP []) with
  | (t, false) => ⟨t, .zero, false⟩
  | (t, true) =>
    match attempt (faults .openNext) t (·.openExclusive ["next"]) with
    | (t, false) => ⟨t, .zero, false⟩
    | (t, true) =>
      let d := { Handle.zero with nextFp := some ["next"] }
      let current := (readdf t ["current"]).getD (-1)
      let exit := if (readdf t ["current"]).isSome then layoutExit faults current t else (t, true)
      match exit with
      | (t, false) => ⟨t, { d with current := current }, false⟩
      | (t, true) =>
        let d := { d with current := current, next := current + 1 }
        match layoutInit faults d.next t with
        | (t, false) => ⟨t, d, false⟩
        | (t, true) => ⟨t, { d with path := path }, true⟩

end Dagger
