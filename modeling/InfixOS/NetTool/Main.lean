import InfixOS.Exec.Program
import InfixOS.Exec.Streams
import InfixOS.Posix.Stdio
import Mathlib

/-! `net do` of src/net/src/main.c: tear down the current generation, bring up the
next one, remember the order. The directories are what the user of the tool makes;
the process itself only writes deps and rdeps of a generation, gen and next. -/
namespace NetTool
open Exec Posix

inductive Action where
  | exitBridge
  | exitIp
  | exitEthtool
  | initEthtool
  | initIp
  | initBridge
  deriving DecidableEq, Repr

def Action.name : Action → String
  | exitBridge => "exit.bridge"
  | exitIp => "exit.ip"
  | exitEthtool => "exit-ethtool.sh"
  | initEthtool => "init-ethtool.sh"
  | initIp => "init.ip"
  | initBridge => "init.bridge"

inductive Pipe where
  | ip
  | bridge
  deriving DecidableEq, Repr

/-- What goes wrong with an action file. -/
inductive Fault where
  | open
  | read
  | close
  deriving DecidableEq, Repr

/-- An action file, with the text that can be read of it. -/
structure File where
  text : Text
  fault : Option Fault
  deriving DecidableEq, Repr

/-- What the path of an action leads to. -/
inductive Entry where
  /-- ENOENT or ENOTDIR -/
  | missing
  /-- any other error of realpath or access -/
  | unresolved
  | file (file : File)
  deriving DecidableEq, Repr

/-- The names the kernel has for interfaces: shorter than IFNAMSIZ, without blanks. -/
def IsName (name : String) : Prop :=
  name ≠ "" ∧ name.toList.length < 16 ∧ ∀ c ∈ name.toList, c ≠ '/' ∧ c ≠ ' ' ∧ c ≠ '\t' ∧ c ≠ '\n'

instance (name : String) : Decidable (IsName name) :=
  haveI := List.decidableBAll (fun c => c ≠ '/' ∧ c ≠ ' ' ∧ c ≠ '\t' ∧ c ≠ '\n') name.toList
  inferInstanceAs (Decidable (_ ∧ _ ∧ _))

/-- The directory of a generation, as it is enumerated. The links of an interface are
named after the interfaces they lead to. -/
structure Tree where
  entries : List String
  links : String → List String
  action : String → Action → Entry
  distinct : entries.Nodup
  named : ∀ i ∈ entries, IsName i

/-- The files that the tool itself writes, deps and rdeps by generation. -/
structure Files where
  deps : String → Option Text
  rdeps : String → Option Text
  gen : Option Text
  next : Option Text

inductive Write where
  | deps (gen : String) (text : Text)
  | rdeps (gen : String) (text : Text)
  | gen (text : Text)
  | removeNext

def Write.apply (files : Files) : Write → Files
  | deps n text => { files with deps := Function.update files.deps n (some text) }
  | rdeps n text => { files with rdeps := Function.update files.rdeps n (some text) }
  | gen text => { files with gen := some text }
  | removeNext => { files with next := none }

/-- A line of an action file, or a script as a whole. -/
structure Command where
  action : Action
  owner : String
  line : String
  deriving DecidableEq, Repr

abbrev Event := Streams.Event Pipe Command

/-- What a process does, in program order. -/
inductive Log where
  | run (action : Action) (owner : String)
  | event (event : Event)
  | write (write : Write)

structure Proc where
  files : Files
  ifaceList : List String
  dep : Nat
  log : List Log

inductive Stop where
  | exit (status : Nat)
  /-- the stack is used up -/
  | killed
  deriving DecidableEq, Repr

abbrev Net := Program Stop Proc

/-- What the system grants to a process: nested calls, and the files it can open; and
how the two batch processes end. -/
structure Host where
  stack : Nat
  ipStatus : Int
  bridgeStatus : Int
  pipes : Bool
  deps : Bool
  rdeps : Bool
  gen : Bool
  next : Bool
  deriving Repr

def record (entry : Log) : Net Unit := Program.update fun s => { s with log := s.log ++ [entry] }

def write (w : Write) : Net Unit := Program.update fun s =>
  { s with files := w.apply s.files, log := s.log ++ [.write w] }

/-- A copy into a buffer of IFNAMSIZ bytes. -/
def copied (ifname : String) : String := String.ofList (ifname.toList.take 15)

def addif (ifname : String) : Net Unit := Program.update fun s =>
  { s with ifaceList := s.ifaceList ++ [copied ifname] }

def findif (ifname : String) : Net Bool := fun s => (.ok (s.ifaceList.contains ifname), s)

def freeifs : Net Unit := Program.update fun s => { s with ifaceList := [] }

def savedep (host : Host) (gen ifname : String) : Net Unit := do
  let s ← Program.read
  let text := (s.files.deps gen).getD []
  Program.onlyIf (host.deps && !(fgetsLines 20 text).contains ifname) do
    Program.update fun s => { s with dep := s.dep + 1 }
    write (.deps gen (text ++ unlines [ifname]))

/-- `sed '1!G;h;$!d'`, with the shell's redirections. -/
def saveRdeps (host : Host) (gen : String) : Net Int := do
  let s ← Program.read
  match s.files.deps gen with
  | none => pure 1
  | some text => do
    write (.rdeps gen [])
    if host.rdeps then do
      write (.rdeps gen (unlines (lines text).reverse))
      pure 0
    else pure 1

/-- From the last occurrence of a character on. -/
def strrchr (s : Text) (c : Char) : Option Text :=
  if c ∈ s then some (c :: (s.reverse.takeWhile (· ≠ c)).reverse) else none

def pipep (action : String) : Option Pipe :=
  match strrchr action.toList '.' with
  | none => none
  | some suffix =>
    if suffix = ".ip".toList then some .ip
    else if suffix = ".bridge".toList then some .bridge
    else none

def pipeit (pipe : Pipe) (action : Action) (owner : String) (file : File) : Net Int :=
  if file.fault = some .open then pure 0 -- nop
  else do
    Program.forEach (fgetsLines 256 file.text) fun line => record (.event (.put pipe ⟨action, owner, line⟩))
    pure (if file.fault = some .close then -1 else 0)

/-- Whether a shell script succeeds is only reported. Its path stands for a word that the
shell takes as written. -/
def run (action : Action) (owner : String) (file : File) : Net Int := do
  record (.run action owner)
  match pipep action.name with
  | some pipe => pipeit pipe action owner file
  | none => do
    record (.event (.direct ⟨action, owner, action.name⟩))
    pure 0

def dirFilter (file : String) : Bool := !(["deps", "rdeps", "admin-state"].contains file)

/-- What is enumerated of a generation. -/
def Tree.ifaces (tree : Tree) : List String := tree.entries.filter dirFilter

/-- The links of an interface that lead somewhere. -/
def Tree.needs (tree : Tree) (ifname : String) : List String :=
  ((tree.links ifname).filter dirFilter).filter fun link => tree.entries.contains link

/-- Run what the path of an action leads to. -/
def attempt (action : Action) (ifname : String) : Entry → Net Int
  | .missing => pure 0
  | .unresolved => pure (-1)
  | .file file => run action ifname file

/-- The action of an interface, unless it has been taken care of. -/
def act (tree : Tree) (action : Action) (ifname : String) : Net Int := do
  let found ← findif ifname
  if found then pure 0
  else do
    let rc ← attempt action ifname (tree.action ifname action)
    addif ifname
    pure rc

def deps (host : Host) (tree : Tree) (gen : String) (action : Action) : Nat → String → Net Int
  | 0, _ => do
    record (.event .crash)
    Program.fail .killed
  | stack + 1, ifname => do
    Program.forEach (tree.needs ifname) fun link => do
      let _ ← deps host tree gen action stack link
    savedep host gen ifname
    act tree action ifname

/-- Flush a pipe and wait for the process behind it. -/
def pclose (host : Host) (pipe : Pipe) : Net Int := do
  record (.event (.close pipe))
  pure (match pipe with
    | .ip => host.ipStatus
    | .bridge => host.bridgeStatus)

def iter (host : Host) (tree : Tree) (gen : String) (action : Action) : Net Int := do
  let rc ← Program.sumOver tree.ifaces fun ifname => deps host tree gen action host.stack ifname
  freeifs
  match pipep action.name with
  | some pipe => do let _ ← pclose host pipe
  | none => pure ()
  pure rc

/-- Run an action that passes `access`. -/
def undo (action : Action) (ifname : String) : Entry → Net Int
  | .file file => run action ifname file
  | _ => pure 0

def rdeps (tree : Tree) (gen : String) (action : Action) : Net Int := do
  let s ← Program.read
  match s.files.rdeps gen with
  | none => pure 0
  | some text => Program.sumOver (fgetsLines 20 text) fun ifname => undo action ifname (tree.action ifname action)

def exitActions : List Action := [.exitBridge, .exitIp, .exitEthtool]

def initActions : List Action := [.initEthtool, .initIp, .initBridge]

def deactivate (tree : Tree) (gen : String) : Net Int := Program.sumOver exitActions (rdeps tree gen)

def activate (host : Host) (tree : Tree) (gen : String) : Net Int := Program.sumOver initActions (iter host tree gen)

/-- EX_OSFILE without the file, EX_IOERR without a line in it. -/
def loadGen : Option Text → Except Nat String
  | none => .error 72
  | some text =>
    match fgetsLines 512 text with
    | [] => .error 74
    | line :: _ => .ok line

def saveGen (host : Host) (gen : String) : Net Int :=
  if host.gen then do
    write (.gen [])
    write (.gen (unlines [gen]))
    pure 0
  else pure (-1)

/-- Give up if a call has failed. -/
def check (rc : Int) : Net Unit := Program.onlyIf (rc ≠ 0) (Program.fail (.exit 1))

/-- The part of `activate_next` from the call of `activate` on. -/
def enterNext (host : Host) (trees : String → Tree) (next : String) : Net Unit := do
  check (← activate host (trees next) next)
  let s ← Program.read
  Program.onlyIf (s.dep ≠ 0) do check (← saveRdeps host next)
  check (← saveGen host next)
  if host.next then write .removeNext else Program.fail (.exit 1)

/-- The part of `activate_next` about the current generation. -/
def leaveCurrent (trees : String → Tree) : Net Unit := do
  let s ← Program.read
  match loadGen s.files.gen with
  | .error rc => Program.onlyIf (rc = 74) (Program.fail (.exit 74))
  | .ok curr => do check (← deactivate (trees curr) curr)

def activateNext (host : Host) (trees : String → Tree) : Net Unit := do
  Program.onlyIf (!host.pipes) (Program.fail (.exit 1))
  let s ← Program.read
  match loadGen s.files.next with
  | .error _ => Program.fail (.exit 0)
  | .ok next => do
    leaveCurrent trees
    enterNext host trees next

/-- A process with its interface arguments. -/
def start (args : List String) (files : Files) : Proc := ⟨files, args.map copied, 0, []⟩

end NetTool
