import InfixOS.Dagger.EvolveRuns

/-! Whole histories of one base directory: claims, what a transaction writes,
and the two ways it ends. Names of nodes are restricted to words that the
unquoted commands take as written. A call through a handle whose stream is
closed is undefined in the source and has no effect here. -/
namespace Dagger
open Posix Posix.FileTree

variable {σ : Type}

/-- One component of a path that the shell takes as it is written. -/
def Plain (s : String) : Prop := isPlainWord s.toList = true ∧ '/' ∉ s.toList ∧ s ∉ [".", ".."]

instance (s : String) : Decidable (Plain s) := inferInstanceAs (Decidable (_ ∧ _))

structure Name where
  text : String
  plain : Plain text

/-- The rest of the file name of a script, on one line. With a slash in it there is no
directory to open the file in. -/
structure ScriptName where
  text : String
  fits : '/' ∉ text.toList ∧ '\n' ∉ text.toList

/-- A name that a generation may be kept under. -/
def firstDay : Name := ⟨"2023-06-05", by decide⟩

/-- The action a script belongs to, with the generation it is written to. -/
inductive Side where
  | init
  | exit
  deriving DecidableEq

/-- What a transaction does between its claim and its end. -/
inductive Op (σ : Type) where
  | addNode (node : Name)
  | addDep (depender dependee : Name)
  | fopen (side : Side) (node : Name) (prio : Nat) (script : ScriptName)
  | print (side : Side) (node : Name) (prio : Nat) (script : ScriptName) (data : List σ)
  | skipIface (ifname : Name)

/-- Dependencies are added to nodes that are there, and a stream exists only
where `dagger_fopen` returns one. -/
def Op.apply (d : Handle) (t : Base σ) : Op σ → Base σ
  | .addNode node => (daggerAddNode d t node.text).1
  | .addDep depender dependee =>
    match t.get [genName d.next, "dag", depender.text] with
    | some .dir => (daggerAddDep d t depender.text dependee.text).1
    | _ => t
  | .fopen .init node prio script => (daggerFopenNext d t "init" node.text prio script.text).1
  | .fopen .exit node prio script => (daggerFopenCurrent d t "exit" node.text prio script.text).1
  | .print .init node prio script data =>
    if prio ≤ 99 then
      t.append (scriptPath d.next "init" node.text prio script.text) (data.map .out)
    else t
  | .print .exit node prio script data =>
    if prio ≤ 99 ∧ 0 ≤ d.current then
      t.append (scriptPath d.current "exit" node.text prio script.text) (data.map .out)
    else t
  | .skipIface ifname => daggerSkipIface d t ifname.text

inductive Event where
  | claimed (gen : Int)
  | ran (argv : List String) (status : Nat)
  | evolved
  deriving DecidableEq, Repr

/-- The base directory, the caller's struct, whether its stream is open, and
what has happened, newest first. -/
structure World (σ : Type) where
  tree : Base σ
  handle : Handle
  live : Bool
  log : List Event

def World.initial : World σ := ⟨.empty, .zero, false, []⟩

inductive Input (σ : Type) where
  | claim (faults : Faults)
  | op (op : Op σ)
  | abandon (stamp : Name)
  | evolve (env : Env)
  | done (env : Env) (stamp : Name)

/-- The inputs that end a transaction. -/
def Input.ends : Input σ → Bool
  | .claim _ | .op _ => false
  | .abandon _ | .evolve _ | .done _ _ => true

/-- The log after a run of the tool. -/
def record (outcome : Outcome σ) (log : List Event) : List Event :=
  (if outcome.ok then [.evolved] else []) ++
    (outcome.trace.map fun line => Event.ran line.1 line.2).reverse ++ log

def World.step [ToString σ] (base : String) (w : World σ) : Input σ → World σ
  | .claim faults =>
    let claimed := daggerClaim faults base w.handle w.tree
    ⟨claimed.tree, claimed.handle, claimed.ok,
      (if claimed.ok then [.claimed claimed.handle.next] else []) ++ w.log⟩
  | .op op => if w.live then { w with tree := op.apply w.handle w.tree } else w
  | .abandon stamp =>
    if w.live then
      { w with tree := (daggerAbandon stamp.text w.handle w.tree).1, live := false }
    else w
  | .evolve env =>
    if w.live then
      let outcome := daggerEvolve { env with basedir := base } w.handle w.tree
      ⟨outcome.tree, w.handle, false, record outcome w.log⟩
    else w
  | .done env stamp =>
    if w.live then
      let outcome := daggerEvolveOrAbandon { env with basedir := base } stamp.text w.handle w.tree
      ⟨outcome.tree, w.handle, false, record outcome w.log⟩
    else w

def World.run [ToString σ] (base : String) (w : World σ) (inputs : List (Input σ)) : World σ :=
  inputs.foldl (World.step base) w

def Reachable [ToString σ] (base : String) (w : World σ) : Prop :=
  ∃ inputs, w = World.run base .initial inputs

/-- The number of successful evolves. -/
def evolves (log : List Event) : Nat := log.count .evolved

/-- What has happened since a generation was last claimed. -/
def since (gen : Int) (log : List Event) : List Event := log.takeWhile (· ≠ .claimed gen)

theorem Plain.literal (plain : Plain s) : Literal s := by
  have ordinary := plain.1
  simp only [isPlainWord, Bool.and_eq_true] at ordinary
  exact literal_of_ordinary ordinary.1.1.1

theorem Plain.ne_empty (plain : Plain s) : s ≠ "" := by
  rintro rfl
  exact absurd plain.1 (by decide)

/-- A plain name may also be the name of a script. -/
theorem Plain.fits (plain : Plain s) : '/' ∉ s.toList ∧ '\n' ∉ s.toList :=
  ⟨plain.2.1, fun member => absurd (plain.literal _ member).1 (by decide)⟩

end Dagger
