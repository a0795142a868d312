import InfixOS.Dagger.ExitAction
import InfixOS.Netdag.Share

/-! Committed transactions, one after the other. The exit scripts of each go into
the generation that its predecessor made and run over the nodes it listed. -/
namespace Netdag
open Core Dagger Exec Lyx Posix Posix.FileTree Yang

/-- The system between two transactions, with the configuration it runs. -/
structure Running where
  net : Net
  cfg : List Node

def Running.boot (kernel : Kernel) : Running := ⟨⟨.initial, kernel⟩, []⟩

/-- A transaction that goes through: its CHANGE is accepted and the evolve of its
DONE succeeds. What the scripts do to the live system is left open. -/
inductive Commit (base : String) (s : Running) (change : Change) : Running → Prop
  | intro {mid last : Net} (accepted : ifchange base change s.net = (.ok, mid)) (env : Env) (stamp : Name)
      (done : ifchangeDone base env stamp mid = (.ok, last)) (kernel : Kernel) :
      Commit base s change ⟨⟨last.world, kernel⟩, change.cfg⟩

/-- What is reached from the empty configuration by commits that are `fine`. -/
inductive Commits (base : String) (fine : Running → Change → Prop) : Running → Prop
  | boot (kernel : Kernel) : Commits base fine (.boot kernel)
  | commit (before : Commits base fine s) (holds : fine s change) (step : Commit base s change u) :
      Commits base fine u

/-- The number of generations there have been. -/
def Net.generations (net : Net) : Nat := evolves net.world.log

/-- An entry of the dag directory of the current generation. -/
def Net.currentDag (net : Net) (r : Path) : Option (Posix.Node (Item Piece)) :=
  net.world.tree.get (genName (net.generations - 1) :: "dag" :: r)

/-- The current generation has a node, for which the next transaction runs exit scripts. -/
def Net.Lists (net : Net) (v : String) : Prop := 0 < net.generations ∧ net.currentDag [v] = some .dir

instance (net : Net) (v : String) : Decidable (net.Lists v) := inferInstanceAs (Decidable (_ ∧ _))

/-- The scripts of the generator have words for names. -/
theorem Act.Touches.worded {act : Act} (fine : act.Fine) (touches : act.Touches k q n) : Worded q := by
  have script (side : Side) (v : String) (name : Nat × String) (words : Plain v ∧ Plain name.2) :
      Worded (scriptOf k side v name) := by
    rintro m action w s same
    have text : Literal (sideText side) := by cases side <;> decide
    simp only [scriptOf, scriptPath, List.cons.injEq, true_and, and_true] at same
    obtain ⟨-, rfl, rfl, rfl⟩ := same
    simp only [List.forall_mem_cons]
    exact ⟨text, words.1.literal, (scriptName_literal _ words.2.literal).1, by simp⟩
  cases act with
  | node v => exact .of_length (by have bound := touches.1.length_le; simp at bound; omega)
  | dep a b => exact .of_length (by simp [touches.1])
  | skip v => exact .of_length (by simp [touches.1])
  | test v answer => exact touches.elim
  | fopen side v name =>
    rcases touches.2 with ⟨above, -⟩ | ⟨-, rfl, -⟩
    · exact .of_length (by have bound := above.length_le; simp at bound; omega)
    · exact script side v name ⟨fine.1, fine.2.1⟩
  | print side v name piece =>
    obtain ⟨-, rfl, -⟩ := touches
    exact script side v name ⟨fine.1, fine.2.1⟩

theorem Generated.writes (made : Generated d k kernel cfg diff plan t u v) :
    Writes (fun q n => OpWrite k q n ∧ Worded q) t v := by
  have first := (made.nodes.effect made.nodesReady).2
  have second := (made.made.effect made.ready).2
  refine (first.mono ?_).trans (second.mono ?_)
  · rintro q n ⟨act, member, touches⟩
    have fine := made.nodesReady.fine act member
    exact ⟨touches.opWrite fine, touches.worded fine⟩
  · rintro q n ⟨act, member, touches⟩
    have fine := made.ready.fine act member
    exact ⟨touches.opWrite fine, touches.worded fine⟩

theorem Generated.node (made : Generated d k kernel cfg diff plan t u v) (member : iface ∈ ifaces cfg ++ ifaces diff) :
    v.get [genName k, "dag", ifaceName iface] = some .dir :=
  (made.made.grows made.ready).dir
    (made.nodes.node made.nodesReady (mem_nodeActs.mpr ⟨iface, member, rfl⟩))

/-- The nodes are the interfaces of the configuration and those of the diff. -/
theorem Generated.node_iff (made : Generated d k kernel cfg diff plan t u v) (names : NamesIn Plain cfg diff)
    (fresh : t.get [genName k, "dag", x] = none) :
    v.get [genName k, "dag", x] = some .dir ↔ ∃ iface ∈ ifaces cfg ++ ifaces diff, ifaceName iface = x := by
  constructor
  · intro node
    have planned : .node x ∉ planActs d kernel (interfacesOf cfg) plan := by
      intro member
      obtain ⟨step, listed, share⟩ := planActs_share names member
      cases share with
      | own more => cases more
    rw [made.made.node_asked made.ready planned] at node
    by_contra unlisted
    have asked : .node x ∉ nodeActs (interfacesOf cfg) (interfacesOf diff) := by
      intro member
      obtain ⟨iface, listed, same⟩ := mem_nodeActs.mp member
      exact unlisted ⟨iface, listed, (Act.node.inj same).symm⟩
    rw [made.nodes.node_asked made.nodesReady asked, fresh] at node
    cases node
  · rintro ⟨iface, member, rfl⟩
    exact made.node member

/-- An accepted CHANGE leaves an open transaction that the generator has filled. -/
structure Accepted (base : String) (before : Net) (change : Change) (plan : Plan) (u : Base Piece)
    (after : Net) : Prop where
  inv : Inv base after.world
  ran : Ran base after.world
  live : after.world.live = true
  count : after.generations = before.generations
  leaving : Leaving before.generations after.world.tree
  settled : Settled (before.generations - 1) q → after.world.tree.get q = before.world.tree.get q
  generated : Generated after.world.handle before.generations before.kernel change.cfg change.diff plan
    (before.world.step base (.claim change.faults)).tree u after.world.tree
  skips : SkipFiles before.generations (before.world.step base (.claim change.faults)).tree fun _ => False
  undag : (before.world.step base (.claim change.faults)).tree.get
    (genName before.generations :: "dag" :: r) = none
  fresh : 0 ≤ sideGen before.generations side →
    (before.world.step base (.claim change.faults)).tree.get (scriptOf before.generations side v script) = none

/-- What holds between transactions. -/
structure Steady (base : String) (s : Running) : Prop where
  inv : Inv base s.net.world
  ran : Ran base s.net.world
  leaving : Leaving s.net.generations s.net.world.tree
  nodes : iface ∈ ifaces s.cfg →
    0 < s.net.generations ∧ s.net.currentDag [ifaceName iface] = some .dir
  idle : 0 < s.net.generations →
    s.net.world.tree.get (genName (s.net.generations - 1) :: "action" :: "exit" :: r) = none

theorem ifaces_boot (kernel : Kernel) : ifaces (Running.boot kernel).cfg = [] := rfl

theorem Steady.boot (kernel : Kernel) : Steady base (.boot kernel) where
  inv := .initial base
  ran := by simp [Ran, Running.boot, World.initial, evolves]
  leaving := .empty
  nodes := by simp [ifaces_boot]
  idle := by simp [Running.boot, Net.generations, World.initial, evolves]

/-- A claim writes no script, nothing of the dag and no skip file. -/
theorem not_claim_script (write : ClaimWrite k (scriptOf k' side v script) (n : Posix.Node (Item Piece))) : False := by
  rcases write with ⟨same, _⟩ | ⟨same, _⟩ | ⟨_, ⟨above, _⟩ | ⟨same, _⟩⟩ | ⟨above | above, _⟩ | ⟨same, _⟩
  · simp [scriptOf, scriptPath] at same
  · simp [scriptOf, scriptPath] at same
  · simpa [scriptOf, scriptPath] using above.length_le
  · simp [scriptOf, scriptPath, exitOrder] at same
  · simpa [scriptOf, scriptPath] using above.length_le
  · simpa [scriptOf, scriptPath] using above.length_le
  · simp [scriptOf, scriptPath] at same

theorem not_claim_dag {k : Nat} (write : ClaimWrite k (genName m :: "dag" :: r) (n : Posix.Node (Item Piece))) :
    False := by
  rcases write with ⟨same, _⟩ | ⟨same, _⟩ | ⟨_, ⟨above, _⟩ | ⟨same, _⟩⟩ | ⟨above | above, _⟩ | ⟨same, _⟩
  · simp at same
  · simp at same
  · simp at above
  · simp [exitOrder] at same
  · simp at above
  · simp at above
  · simp at same

theorem not_claim_skip {k : Nat} (write : ClaimWrite k [genName m, "skip", v] (n : Posix.Node (Item Piece))) :
    False := by
  rcases write with ⟨same, _⟩ | ⟨same, _⟩ | ⟨_, ⟨above, _⟩ | ⟨same, _⟩⟩ | ⟨above | above, _⟩ | ⟨same, _⟩
  · simp at same
  · simp at same
  · simp at above
  · simp [exitOrder] at same
  · simp at above
  · simpa using above.length_le
  · simp at same

theorem Steady.accepted (steady : Steady base s) (names : NamesIn Plain change.cfg change.diff)
    (accepted : ifchange base change s.net = (.ok, mid)) :
    ∃ plan u, Accepted base s.net change plan u mid := by
  obtain ⟨live, _, _, state, generated, left⟩ := ifchange_ok (by rw [accepted])
  rw [accepted] at left
  have effect := daggerClaim_effect steady.inv.store change.faults base s.net.world.handle
  have claimed := steady.inv.claim change.faults
  have ran := steady.inv.claim_ran steady.ran change.faults
  have count : evolves (s.net.world.step base (.claim change.faults)).log = s.net.generations :=
    Inv.claim_log s.net.world base change.faults
  have writes : Writes (ClaimWrite s.net.generations) s.net.world.tree
      (s.net.world.step base (.claim change.faults)).tree := effect.writes
  have unlocked : s.net.world.tree.get ["next"] = none := (effect.opened live).1
  generalize first : s.net.world.step base (.claim change.faults) = w at *
  obtain ⟨prepared, handle, _⟩ := claimed.live live
  have opened : Opened w.handle s.net.generations w.tree := by
    rw [count] at prepared handle
    exact ⟨count ▸ claimed.store, prepared, by rw [handle], by rw [handle]⟩
  obtain ⟨plan, u, made⟩ := generate_generated (s := ⟨w.tree, s.net.kernel⟩) generated opened names
  have written := made.writes
  have wrote := written.mono fun q n write => write.1
  have claims := steady.leaving.writes writes fun q n write => write.unrelated
  obtain rfl : mid = Net.put ⟨w, s.net.kernel⟩ state := left
  have written' : Writes (OpWrite (evolves w.log)) w.tree state.tree := count ▸ wrote
  refine ⟨plan, u, claimed.wrote live written', ran.wrote written', live, count, ?_, ?_, first ▸ made, ?_, ?_, ?_⟩
  · exact claims.writes written fun q n write => write.1.unrelated write.2
  · intro q settled
    exact (wrote.frame settled.not_op).trans (writes.frame settled.not_claim)
  · rw [first]
    refine ⟨opened.prepared.skips, fun skip => skip.elim, fun {v} _ => ?_⟩
    exact (writes.frame fun n write => not_claim_skip write).trans (steady.inv.store.fresh unlocked)
  · intro r
    rw [first, writes.frame fun n write => not_claim_dag write]
    exact steady.inv.store.fresh unlocked
  · intro side v script attached
    rw [first, writes.frame fun n write => not_claim_script write]
    cases side with
    | init => exact steady.inv.store.fresh unlocked
    | exit => exact steady.idle (by simp only [sideGen] at attached; omega)

theorem ifchangeDone_ok (done : ifchangeDone base env stamp net = (.ok, last)) (live : net.world.live = true) :
    let outcome := daggerEvolve { env with basedir := base } net.world.handle net.world.tree
    outcome.ok = true ∧ last.world = ⟨outcome.tree, net.world.handle, false, record outcome net.world.log⟩ := by
  intro outcome
  simp only [ifchangeDone, daggerEvolveOrAbandon, World.step, live, if_true, Prod.mk.injEq] at done
  cases ok : outcome.ok with
  | true =>
    simp only [outcome] at ok
    simp only [ok, if_true] at done
    rw [← done.2]
    exact ⟨rfl, rfl⟩
  | false =>
    simp only [outcome] at ok
    simp only [ok, Bool.false_eq_true, if_false] at done
    split at done
    · simp [ok] at done
    · simp at done

/-- After the evolve of an accepted CHANGE its generation is the current one. -/
structure Succeeded (base : String) (mid last : Net) : Prop where
  inv : Inv base last.world
  ran : Ran base last.world
  count : last.generations = mid.generations + 1
  leaving : Leaving last.generations last.world.tree
  kept : (r : Path) → r.length ≠ 1 →
    last.world.tree.get (genName (last.generations - 1) :: r) = mid.world.tree.get (genName mid.generations :: r)

theorem Accepted.succeeded (accepted : Accepted base before change plan u mid) (nonempty : base ≠ "")
    (literal : Literal base) (done : ifchangeDone base env stamp mid = (.ok, last)) :
    Succeeded base mid last := by
  obtain ⟨ok, ended⟩ := ifchangeDone_ok done accepted.live
  have inv := accepted.inv.evolved accepted.live nonempty env ok
  obtain ⟨prepared, handle, _⟩ := accepted.inv.live accepted.live
  have words : InitWords env.sh base mid.world.handle.next mid.world.tree := by
    intro v q node runs below
    rw [handle] at below
    obtain ⟨owner, prio, script, _, rfl⟩ := prepared.named q runs
      ((List.prefix_append [genName _, "action", "init"] [v]).trans below)
    exact accepted.leaving.oneWord { env with basedir := base } literal runs
  have ran := accepted.inv.evolved_ran accepted.live nonempty env words ok
  rw [← ended] at inv ran
  have count : last.generations = mid.generations + 1 := by
    rw [Net.generations, ended, record_eq, evolves_news, if_pos ok]
    rfl
  obtain ⟨x, store, laid, next, frame⟩ := accepted.inv.announced accepted.live
  have cases := doEvolve_cases store laid next { env with basedir := base }
  rw [accepted.inv.evolve_tool accepted.live nonempty] at ok ended
  have leaving : Leaving mid.generations (announce mid.world.handle mid.world.tree) := by
    have before : Leaving mid.generations mid.world.tree := accepted.count ▸ accepted.leaving
    exact before.congr frame
  have tree : last.world.tree = (ordered env.enum (announce mid.world.handle mid.world.tree)
      mid.generations).rename ["next"] ["current"] := by
    rw [ended]
    generalize doEvolve { env with basedir := base } (announce mid.world.handle mid.world.tree) = outcome
      at ok cases ⊢
    cases cases with
    | exitFailed trace => simp at ok
    | initFailed trace => simp at ok
    | succeeded trace zero => rfl
  refine ⟨inv, ran, count, ?_, fun r long => ?_⟩
  · rw [count, tree]
    exact leaving.evolved store laid env.enum
  · have cast : ((mid.generations + 1 : Nat) : Int) - 1 = mid.generations := by omega
    have other : ¬isOrderFile [genName mid.generations] (genName mid.generations :: r) := by
      rintro (same | same)
      · simp_all
      · simp_all
    rw [count, cast, tree, get_rename_frame _ ⟨by decide, by decide⟩
      (by simp [(genName_ne_next _).symm]) (by simp [(genName_ne_current _).symm])]
    exact (ordered_frame store laid env.enum other).trans (frame _ (by simp [genName_ne_next]))

theorem Commit.steady (step : Commit base s change u) (steady : Steady base s) (nonempty : base ≠ "")
    (literal : Literal base) (names : NamesIn Plain change.cfg change.diff) : Steady base u := by
  obtain ⟨accepted, env, stamp, done, kernel⟩ := step
  obtain ⟨plan, w, change⟩ := steady.accepted names accepted
  have after := change.succeeded nonempty literal done
  refine ⟨after.inv, after.ran, after.leaving, fun {iface} member => ⟨?_, ?_⟩, fun {r} _ => ?_⟩
  · exact (Nat.succ_pos _).trans_eq after.count.symm
  · refine (after.kept ["dag", ifaceName iface] (by simp)).trans ?_
    rw [change.count]
    exact change.generated.node (List.mem_append_left _ member)
  · refine (after.kept ("action" :: "exit" :: r) (by simp)).trans ?_
    rw [change.count]
    exact change.leaving.unused

/-- A transaction lists the interfaces of its configuration, and those that it deletes. -/
theorem Commit.lists_iff (step : Commit base s change u) (steady : Steady base s) (nonempty : base ≠ "")
    (literal : Literal base) (names : NamesIn Plain change.cfg change.diff) (x : String) :
    u.net.Lists x ↔ x ∈ (ifaces change.cfg).map ifaceName ∨ x ∈ (ifaces change.diff).map ifaceName := by
  obtain ⟨accepted, env, stamp, done, kernel⟩ := step
  obtain ⟨plan, w, filled⟩ := steady.accepted names accepted
  have after := filled.succeeded nonempty literal done
  have positive := (Nat.succ_pos _).trans_eq after.count.symm
  have dag := after.kept ["dag", x] (by simp)
  rw [filled.count] at dag
  have node := filled.generated.node_iff names (x := x) filled.undag
  rw [← dag] at node
  rw [← List.mem_append, ← List.map_append, List.mem_map]
  exact ⟨fun lists => node.mp lists.2, fun listed => ⟨positive, node.mpr listed⟩⟩

theorem Commits.steady (commits : Commits base fine s) (nonempty : base ≠ "") (literal : Literal base)
    (names : ∀ s change, fine s change → NamesIn Plain change.cfg change.diff) : Steady base s := by
  induction commits with
  | boot kernel => exact .boot kernel
  | commit before holds step ih => exact step.steady ih nonempty literal (names _ _ holds)

/-- A name that is one word to the shell and that the tool does not use itself. -/
def Usable (name : String) : Prop := Plain name ∧ name ∉ ["@pre", "@post"]

instance : DecidablePred Usable := fun _ => inferInstanceAs (Decidable (_ ∧ _))

/-- A transaction all of whose names are usable. -/
def NamesUsable (_ : Running) (change : Change) : Prop := NamesIn Usable change.cfg change.diff

theorem NamesUsable.plain (usable : NamesUsable s change) : NamesIn Plain change.cfg change.diff :=
  usable.mono fun _ fine => fine.1

theorem Commits.reserved (commits : Commits base NamesUsable s) (member : iface ∈ ifaces s.cfg) :
    ifaceName iface ∉ ["@pre", "@post"] := by
  cases commits with
  | boot kernel => simp [ifaces_boot] at member
  | commit before usable step =>
    obtain ⟨accepted, env, stamp, done, kernel⟩ := step
    exact (usable.own iface member).2

/-- Every interface of the running configuration is a node of the current
generation, and every exit script that the next transaction writes for it is run
once, before any init script. -/
theorem exit_scripts_executed (base : String) (nonempty : base ≠ "") (literal : Literal base) (s : Running)
    (commits : Commits base NamesUsable s) :
    (∀ iface ∈ ifaces s.cfg, s.net.currentDag [ifaceName iface] = some .dir) ∧
    ∀ (change : Change) (mid : Net), NamesUsable s change → ifchange base change s.net = (.ok, mid) →
      ∀ iface ∈ ifaces s.cfg, ∀ q, mid.world.tree.isExecutable q = true →
        [genName (s.net.generations - 1), "action", "exit", ifaceName iface] <+: q →
        ∀ (env : Env) (stamp : Name), ExecutedOnce { env with basedir := base } s.net.generations
          (daggerEvolveOrAbandon { env with basedir := base } stamp.text mid.world.handle mid.world.tree) q := by
  have steady := commits.steady nonempty literal fun _ _ usable => usable.plain
  refine ⟨fun iface member => (steady.nodes member).2, ?_⟩
  intro change mid usable accepted iface member q runs below env stamp
  obtain ⟨positive, node⟩ := steady.nodes member
  obtain ⟨plan, u, filled⟩ := steady.accepted usable.plain accepted
  obtain ⟨x, store, laid, next, frame⟩ := filled.inv.announced filled.live
  have count : evolves mid.world.log = s.net.generations := filled.count
  rw [count] at store laid next
  have executed : ExecutedOnce { env with basedir := base } s.net.generations
      (doEvolve { env with basedir := base } (announce mid.world.handle mid.world.tree)) q := by
    refine exit_executed (filled.leaving.congr frame) store laid next positive { env with basedir := base }
      literal (v := ifaceName iface) ?_ (commits.reserved member) ?_ below
    · rw [frame _ (by simp), filled.settled (.inl ⟨_, rfl⟩)]
      exact node
    · rw [isExecutable, frame _ (by rintro rfl; simp at below)]
      exact runs
  -- The abandon that follows a failed evolve runs no script.
  rw [← filled.inv.evolve_tool filled.live nonempty] at executed
  unfold daggerEvolveOrAbandon
  simp only
  split
  · exact executed
  · split
    · exact executed
    · exact executed

/-- An interface entry. -/
def ifaceEntry (name iftype : String) (more : List Node) : Node :=
  .inner "interface" ["name"] .plain
    (.leaf "name" name false .plain :: .leaf "type" iftype false .plain :: more)

def interfaces (entries : List Node) : List Node := [.inner "interfaces" [] .plain entries]

/-- A CHANGE from one configuration to another in which nothing fails on the way. -/
def changeTo (old new : List Node) : Change :=
  ⟨fun _ => false, .ok, new, .ok, diffSiblings old new, firstDay⟩

/-- Scripts that all succeed. -/
def calmEnv : Env := ⟨.bare, "/run/net", .listed, fun _ => 0⟩

/-- The next configuration has been committed. -/
def Running.to (s : Running) (cfg : List Node) (kernel : Kernel) : Running :=
  let accepted := (ifchange "/run/net" (changeTo s.cfg cfg) s.net).2
  ⟨⟨(ifchangeDone "/run/net" calmEnv firstDay accepted).2.world, kernel⟩, cfg⟩

/-- The CHANGE and the DONE of the step to another configuration succeed. -/
def Running.Goes (s : Running) (cfg : List Node) : Prop :=
  (ifchange "/run/net" (changeTo s.cfg cfg) s.net).1 = .ok ∧
  (ifchangeDone "/run/net" calmEnv firstDay
    (ifchange "/run/net" (changeTo s.cfg cfg) s.net).2).1 = .ok

instance (s : Running) (cfg : List Node) : Decidable (s.Goes cfg) := inferInstanceAs (Decidable (_ ∧ _))

theorem Running.Goes.commit {cfg : List Node} (goes : s.Goes cfg) (kernel : Kernel) :
    Commit "/run/net" s (changeTo s.cfg cfg) (s.to cfg kernel) :=
  .intro (Prod.ext goes.1 rfl) calmEnv firstDay (Prod.ext goes.2 rfl) kernel

theorem Commits.to (commits : Commits "/run/net" fine s) (cfg : List Node) (kernel : Kernel)
    (goes : s.Goes cfg) (holds : fine s (changeTo s.cfg cfg)) : Commits "/run/net" fine (s.to cfg kernel) :=
  .commit commits holds (goes.commit kernel)

/-- A system that has been given a single interface. -/
def runningOne (name iftype : String) (kernel : Kernel) : Running :=
  (Running.boot kernel).to (interfaces [ifaceEntry name iftype []]) kernel

def bridged : Running := runningOne "br0" typeBridge ⟨[]⟩

/-- The CHANGE that takes the bridge away. -/
def unbridged : Net := (ifchange "/run/net" (changeTo bridged.cfg []) bridged.net).2

/-- The deletion of a bridge is carried out once. -/
theorem exit_scripts_executed_bridge :
    unbridged.world.tree.isExecutable ["0", "action", "exit", "br0", "50-exit.ip"] = true ∧
    ExecutedOnce calmEnv 1
      (daggerEvolveOrAbandon calmEnv "2023-06-06" unbridged.world.handle unbridged.world.tree)
      ["0", "action", "exit", "br0", "50-exit.ip"] := by
  have executable : unbridged.world.tree.isExecutable ["0", "action", "exit", "br0", "50-exit.ip"] = true := by
    decide +kernel
  have usable : NamesIn Usable (changeTo [] bridged.cfg).cfg (changeTo [] bridged.cfg).diff := by decide +kernel
  have gone : NamesIn Usable (changeTo bridged.cfg []).cfg (changeTo bridged.cfg []).diff := by decide +kernel
  have commits : Commits "/run/net" NamesUsable bridged :=
    (Commits.boot ⟨[]⟩).to _ _ (by decide +kernel) usable
  have accepted : (ifchange "/run/net" (changeTo bridged.cfg []) bridged.net).1 = .ok := by decide +kernel
  have named : ∃ iface ∈ ifaces bridged.cfg, ifaceName iface = "br0" := by decide +kernel
  obtain ⟨iface, member, name⟩ := named
  have generations : bridged.net.generations = 1 := by decide +kernel
  have executed := (exit_scripts_executed "/run/net" (by decide) (by decide) bridged commits).2
    (changeTo bridged.cfg []) unbridged gone (Prod.ext accepted rfl) iface member _ executable
  rw [generations, name] at executed
  exact ⟨executable, executed (by decide +kernel) calmEnv ⟨"2023-06-06", by decide⟩⟩

/-- An Ethernet interface may be called `@post`; its exit script is run twice. -/
theorem reserved_exit_runs_twice :
    let s := runningOne "@post" "iana-if-type:ethernetCsmacd" ⟨[⟨"@post", .ether, [], []⟩]⟩
    let changed := ifchange "/run/net" (changeTo s.cfg []) s.net
    let evolved := daggerEvolveOrAbandon calmEnv "2023-06-06" changed.2.world.handle changed.2.world.tree
    Commits "/run/net" (fun _ _ => True) s ∧ (ifaces s.cfg).map ifaceName = ["@post"] ∧ changed.1 = .ok ∧
      evolved.ok = true ∧
      (evolved.trace.map Prod.fst).count ["/run/net/0/action/exit/@post/50-exit.ip"] = 2 := by
  refine ⟨?_, by decide +kernel, by decide +kernel, by decide +kernel, by decide +kernel⟩
  exact (Commits.boot _).to _ _ (by decide +kernel) trivial

end Netdag
