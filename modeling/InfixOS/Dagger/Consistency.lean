import InfixOS.Dagger.Ending

/-! The invariant of whole histories, and what it says about the generation
that is current and about transactions that are given up. -/
namespace Dagger
open Posix Posix.FileTree

variable {σ : Type}

/-- The path of an entry of the base directory as scripts are run by it. -/
def pathName (base : String) (q : Path) : String := q.foldl (fun s c => s ++ "/" ++ c) base

/-- The part of a current generation that later transactions leave alone. -/
def Settled (n : Int) (q : Path) : Prop :=
  (∃ r, q = genName n :: "dag" :: r) ∨ ∃ r, q = genName n :: "action" :: "init" :: r

/-- Every script of the init action that belongs to a node has been run, with
status 0, since the generation was claimed. -/
structure HasRun (base : String) (n : Int) (t : Base σ) (log : List Event) : Prop where
  claimed : .claimed n ∈ log
  scripts : t.get [genName n, "dag", v] = some .dir → t.isExecutable q = true →
    [genName n, "action", "init", v] <+: q → .ran [pathName base q] 0 ∈ since n log

theorem since_append (news : List Event) (other : .claimed n ∉ news) (log : List Event) :
    since n (news ++ log) = news ++ since n log := by
  rw [since, since, List.takeWhile_append_of_pos]
  intro event member
  simp only [decide_eq_true_eq]
  rintro rfl
  exact other member

theorem HasRun.mono {t u : Base σ} (hasRun : HasRun base n t log)
    (same : ∀ q, Settled n q → u.get q = t.get q) (news : List Event) (other : .claimed n ∉ news) :
    HasRun base n u (news ++ log) where
  claimed := List.mem_append_right _ hasRun.claimed
  scripts := by
    intro v q node runs below
    rw [since_append news other]
    refine List.mem_append_right _ (hasRun.scripts (v := v) ?_ ?_ below)
    · rw [← same _ (.inl ⟨_, rfl⟩), node]
    · rw [isExecutable, ← same q]
      · exact runs
      · obtain ⟨r, rfl⟩ := below
        exact .inr ⟨_, rfl⟩

theorem Settled.outside {k : Nat} (settled : Settled (k - 1) q) : Outside k q := by
  rcases settled with ⟨r, rfl⟩ | ⟨r, rfl⟩
  · exact .inr ⟨k - 1, _, by omega, rfl⟩
  · exact .inr ⟨k - 1, _, by omega, rfl⟩

theorem Settled.not_claim {k : Nat} (settled : Settled (k - 1) q) (n : Node (Item σ)) :
    ¬ClaimWrite k q n := by
  have own (r : Path) : ¬InitWrite (k : Int) (genName (k - 1) :: r) n := by
    rintro (⟨above | above, _⟩ | ⟨same, _⟩)
    · rw [List.cons_prefix_cons, genName_inj] at above
      omega
    · rw [List.cons_prefix_cons, genName_inj] at above
      omega
    · simp only [List.cons.injEq, genName_inj] at same
      omega
  rcases settled with ⟨r, rfl⟩ | ⟨r, rfl⟩
  · rintro (⟨same, _⟩ | ⟨same, _⟩ | ⟨_, ⟨above, _⟩ | ⟨same, _⟩⟩ | init)
    · simp at same
    · simp at same
    · simp at above
    · simp [exitOrder] at same
    · exact own _ init
  · rintro (⟨same, _⟩ | ⟨same, _⟩ | ⟨_, ⟨above, _⟩ | ⟨same, _⟩⟩ | init)
    · simp at same
    · simp at same
    · simp at above
    · simp [exitOrder] at same
    · exact own _ init

theorem Settled.not_op {k : Nat} (settled : Settled (k - 1) q) (n : Node (Item σ)) :
    ¬OpWrite k q n := by
  have apart : (k : Int) - 1 ≠ k := by omega
  intro write
  rcases settled with ⟨r, same⟩ | ⟨r, same⟩
  · cases write with
    | node v above => simp [same, apart] at above
    | initDir v above => simp [same] at above
    | exitDir v _ above => simp [same] at above
    | dep v c => simp [apart.symm] at same
    | initScript v s => simp [scriptPath] at same
    | exitScript v s => simp [scriptPath] at same
    | skip v => simp at same
  · cases write with
    | node v above => simp [same] at above
    | initDir v above => simp [same, apart] at above
    | exitDir v _ above => simp [same] at above
    | dep v c => simp at same
    | initScript v s => simp [scriptPath, apart.symm] at same
    | exitScript v s => simp [scriptPath] at same
    | skip v => simp at same

/-- The init action of the current generation, if there is one, has been run. -/
def Ran (base : String) (w : World σ) : Prop :=
  0 < evolves w.log → HasRun base (evolves w.log - 1) w.tree w.log

theorem Ran.wrote {w : World σ} (ran : Ran base w) (wrote : Writes (OpWrite (evolves w.log)) w.tree u) :
    Ran base { w with tree := u } := fun positive =>
  (ran positive).mono (fun q settled => wrote.frame settled.not_op) [] (by simp)

/-- What holds of every history. -/
structure Inv (base : String) (w : World σ) : Prop where
  store : Store (evolves w.log) w.tree
  live : w.live = true → Prepared (evolves w.log) w.tree ∧
    w.handle = ⟨evolves w.log - 1, evolves w.log, some ["next"], base⟩ ∧
    .claimed (evolves w.log : Int) ∈ w.log

theorem Inv.initial (base : String) : Inv base (.initial : World σ) where
  store := .empty
  live := by simp [World.initial]

theorem evolves_append (news log : List Event) (none : .evolved ∉ news) :
    evolves (news ++ log) = evolves log := by
  simp [evolves, List.count_eq_zero_of_not_mem none]

/-- The events a run of the tool adds. -/
def news (outcome : Outcome σ) : List Event :=
  (if outcome.ok then [.evolved] else []) ++
    (outcome.trace.map fun line => Event.ran line.1 line.2).reverse

theorem record_eq (outcome : Outcome σ) (log : List Event) :
    record outcome log = news outcome ++ log := rfl

theorem news_not_claimed (outcome : Outcome σ) (n : Int) : .claimed n ∉ news outcome := by
  cases ok : outcome.ok with
  | true => simp [news, ok]
  | false => simp [news, ok]

theorem evolves_news (outcome : Outcome σ) (log : List Event) :
    evolves (news outcome ++ log) = evolves log + if outcome.ok then 1 else 0 := by
  have quiet : .evolved ∉ (outcome.trace.map fun line => Event.ran line.1 line.2).reverse := by simp
  cases ok : outcome.ok with
  | true =>
    simp only [news, ok, if_true, List.append_assoc]
    rw [evolves, List.singleton_append, List.count_cons_self]
    rw [← evolves, evolves_append _ log quiet]
  | false => simpa [news, ok] using evolves_append _ log quiet

namespace Inv
variable {base : String} {w : World σ}

theorem claim_log [ToString σ] (w : World σ) (base : String) (faults : Faults) :
    evolves (w.step base (.claim faults)).log = evolves w.log := by
  apply evolves_append
  split
  · simp
  · simp

theorem claim [ToString σ] (inv : Inv base w) (faults : Faults) :
    Inv base (w.step base (.claim faults)) := by
  have effect := daggerClaim_effect inv.store faults base w.handle
  have count := claim_log w base faults
  constructor
  case store =>
    rw [count]
    exact effect.store
  case live =>
    rw [count]
    intro ok
    obtain ⟨_, prepared, _, handle⟩ := effect.opened ok
    refine ⟨prepared, handle, ?_⟩
    simp only [World.step] at ok ⊢
    simp [ok, handle]

theorem claim_ran [ToString σ] (inv : Inv base w) (ran : Ran base w) (faults : Faults) :
    Ran base (w.step base (.claim faults)) := by
  have effect := daggerClaim_effect inv.store faults base w.handle
  rw [Ran, claim_log w base faults]
  intro positive
  refine (ran positive).mono (fun q settled => effect.writes.frame settled.not_claim) _ ?_
  split
  · rename_i ok
    obtain ⟨_, _, _, handle⟩ := effect.opened ok
    simp only [handle, List.mem_singleton, Event.claimed.injEq]
    omega
  · simp

/-- Whatever an open transaction writes. -/
theorem wrote (inv : Inv base w) (live : w.live = true) (wrote : Writes (OpWrite (evolves w.log)) w.tree u) :
    Inv base { w with tree := u } := by
  obtain ⟨prepared, handle, claimed⟩ := inv.live live
  obtain ⟨store, kept⟩ := OpWrite.keeps wrote inv.store prepared
  exact ⟨store, fun _ => ⟨kept, handle, claimed⟩⟩

theorem op_writes (inv : Inv base w) (live : w.live = true) (op : Op σ) :
    Writes (OpWrite (evolves w.log)) w.tree (op.apply w.handle w.tree) := by
  obtain ⟨_, handle, _⟩ := inv.live live
  exact op.apply_writes inv.store (by rw [handle]) (by rw [handle])

theorem op [ToString σ] (inv : Inv base w) (op : Op σ) : Inv base (w.step base (.op op)) := by
  simp only [World.step]
  split
  · rename_i live
    exact inv.wrote live (inv.op_writes live op)
  · exact inv

theorem op_ran [ToString σ] (inv : Inv base w) (ran : Ran base w) (op : Op σ) : Ran base (w.step base (.op op)) := by
  simp only [World.step]
  split
  · rename_i live
    exact ran.wrote (inv.op_writes live op)
  · exact ran

/-- The state the tool is called in. -/
theorem announced (inv : Inv base w) (live : w.live = true) : ∃ x,
    let u := announce w.handle w.tree
    Store (evolves w.log) u ∧ Laid (evolves w.log) u ∧
    u.get ["next"] = some (.file [.num (evolves w.log)] x) ∧
    ∀ q, q ≠ ["next"] → u.get q = w.tree.get q := by
  obtain ⟨prepared, handle, _⟩ := inv.live live
  obtain ⟨x, next⟩ := prepared.next
  obtain ⟨store, file, frame⟩ := announce_effect inv.store next base
  rw [handle]
  exact ⟨x, store, prepared.toLaid.congr frame, file, frame⟩

theorem path_eq (inv : Inv base w) (live : w.live = true) : w.handle.path = base := by
  rw [(inv.live live).2.1]

theorem evolve_tool [ToString σ] (inv : Inv base w) (live : w.live = true) (nonempty : base ≠ "")
    (env : Env) : daggerEvolve env w.handle w.tree = doEvolve env (announce w.handle w.tree) := by
  rw [daggerEvolve, if_neg (by rw [inv.path_eq live]; exact nonempty)]

/-- A transaction that ends without success leaves the store in order and
everything outside of its own generation as it was. -/
theorem failure [ToString σ] (inv : Inv base w) (live : w.live = true) (nonempty : base ≠ "")
    (input : Input σ) (ends : input.ends = true)
    (failed : evolves (w.step base input).log = evolves w.log) :
    ∃ t events, w.step base input = ⟨t, w.handle, false, events ++ w.log⟩ ∧
      Store (evolves w.log) t ∧ (∀ q, Outside (evolves w.log) q → t.get q = w.tree.get q) ∧
      .evolved ∉ events ∧ ∀ n, .claimed n ∉ events := by
  have path : w.handle.path ≠ "" := by rw [inv.path_eq live]; exact nonempty
  obtain ⟨x, store, laid, next, frame⟩ := inv.announced live
  have before (q : Path) (outside : Outside (evolves w.log) q) :
      (announce w.handle w.tree).get q = w.tree.get q :=
    frame q fun same => outside.not_next (by rw [same])
  have tool := inv.evolve_tool live nonempty
  cases input with
  | claim faults => simp [Input.ends] at ends
  | op op => simp [Input.ends] at ends
  | abandon stamp =>
    obtain ⟨after, kept⟩ := doAbandon_store store next (laid.dir store.proper) stamp.text
    refine ⟨_, [], ?_, after, fun q outside => by rw [kept q outside, before q outside], by simp, by simp⟩
    simp [World.step, live, daggerAbandon, path]
  | evolve env =>
    simp only [World.step, live, if_true, tool] at failed ⊢
    have notOk : (doEvolve { env with basedir := base } (announce w.handle w.tree)).ok = false := by
      rw [record_eq, evolves_news] at failed
      simpa using failed
    obtain ⟨after, _, _, kept⟩ := evolve_failed store laid next { env with basedir := base } notOk
    refine ⟨_, _, rfl, after, fun q outside => by rw [kept q outside, before q outside], ?_,
      news_not_claimed _⟩
    simp [notOk]
  | done env stamp =>
    simp only [World.step, live, if_true, daggerEvolveOrAbandon, tool] at failed ⊢
    have notOk : (doEvolve { env with basedir := base } (announce w.handle w.tree)).ok = false := by
      by_contra succeeded
      rw [Bool.not_eq_false] at succeeded
      rw [record_eq, evolves_news] at failed
      simp [succeeded] at failed
    simp only [notOk, Bool.false_eq_true, if_false, if_neg path] at failed ⊢
    obtain ⟨storeFailed, nextFailed, dirFailed, keptFailed⟩ :=
      evolve_failed store laid next { env with basedir := base } notOk
    obtain ⟨after, kept⟩ := doAbandon_store storeFailed nextFailed dirFailed stamp.text
    refine ⟨_, _, rfl, after, ?_, by simp, news_not_claimed _⟩
    intro q outside
    rw [kept q outside, keptFailed q outside, before q outside]

/-- A successful evolve counts. -/
theorem evolved [ToString σ] (inv : Inv base w) (live : w.live = true) (nonempty : base ≠ "") (env : Env)
    (ok : (daggerEvolve { env with basedir := base } w.handle w.tree).ok = true) :
    Inv base ⟨(daggerEvolve { env with basedir := base } w.handle w.tree).tree, w.handle, false,
      record (daggerEvolve { env with basedir := base } w.handle w.tree) w.log⟩ := by
  obtain ⟨x, store, laid, next, frame⟩ := inv.announced live
  have cases := doEvolve_cases store laid next { env with basedir := base }
  rw [inv.evolve_tool live nonempty] at ok ⊢
  generalize doEvolve { env with basedir := base } (announce w.handle w.tree) = outcome at ok cases ⊢
  have count : evolves (record outcome w.log) = evolves w.log + 1 := by
    rw [record_eq, evolves_news, if_pos ok]
  cases cases with
  | exitFailed trace => simp at ok
  | initFailed trace => simp at ok
  | succeeded trace zero =>
    refine ⟨?_, by simp⟩
    simp only [count]
    exact evolved_store store laid next env.enum

end Inv

/-- The init scripts that belong to nodes stay one word each where the tool reads their
paths. -/
def InitWords (sh : Shell) (base : String) (n : Int) (t : Base σ) : Prop :=
  ∀ v q, t.get [genName n, "dag", v] = some .dir → t.isExecutable q = true →
    [genName n, "action", "init", v] <+: q → OneWord sh (pathName base q)

/-- An evolve finds its init scripts so. -/
def Input.Worded (base : String) (w : World σ) : Input σ → Prop
  | .evolve env | .done env _ => InitWords env.sh base w.handle.next w.tree
  | .claim _ | .op _ | .abandon _ => True

/-- Every evolve of a history does. -/
def World.Worded [ToString σ] (base : String) (w : World σ) : List (Input σ) → Prop
  | [] => True
  | input :: rest => input.Worded base w ∧ Worded base (w.step base input) rest

namespace Inv
variable {base : String} {w : World σ}

/-- A successful evolve has run what there is of the init action. -/
theorem evolved_ran [ToString σ] (inv : Inv base w) (live : w.live = true) (nonempty : base ≠ "") (env : Env)
    (words : InitWords env.sh base w.handle.next w.tree)
    (ok : (daggerEvolve { env with basedir := base } w.handle w.tree).ok = true) :
    Ran base ⟨(daggerEvolve { env with basedir := base } w.handle w.tree).tree, w.handle, false,
      record (daggerEvolve { env with basedir := base } w.handle w.tree) w.log⟩ := by
  obtain ⟨_, handle, claimed⟩ := inv.live live
  obtain ⟨x, store, laid, next, frame⟩ := inv.announced live
  have cases := doEvolve_cases store laid next { env with basedir := base }
  rw [inv.evolve_tool live nonempty] at ok ⊢
  rw [show w.handle.next = evolves w.log by rw [handle]] at words
  generalize doEvolve { env with basedir := base } (announce w.handle w.tree) = outcome at ok cases ⊢
  have count : evolves (record outcome w.log) = evolves w.log + 1 := by
    rw [record_eq, evolves_news, if_pos ok]
  have cast : ((evolves w.log + 1 : Nat) : Int) - 1 = evolves w.log := by omega
  cases cases with
  | exitFailed trace => simp at ok
  | initFailed trace => simp at ok
  | succeeded trace zero =>
    intro _
    simp only [count, cast]
    refine ⟨List.mem_append_right _ claimed, ?_⟩
    intro v q node runs below
    have kept (r : Path) (other : ¬isOrderFile [genName (evolves w.log)] (genName (evolves w.log) :: r)) :
        ((ordered env.enum (announce w.handle w.tree) (evolves w.log)).rename ["next"]
          ["current"]).get (genName (evolves w.log) :: r) =
        (announce w.handle w.tree).get (genName (evolves w.log) :: r) := by
      rw [get_rename_frame _ ⟨by decide, by decide⟩ (by simp [(genName_ne_next _).symm])
        (by simp [(genName_ne_current _).symm]), ordered_frame store laid env.enum other]
    rw [kept _ (by simp [isOrderFile])] at node
    have executable : (announce w.handle w.tree).isExecutable q = true := by
      obtain ⟨r, rfl⟩ := below
      rw [← runs, isExecutable, isExecutable, List.cons_append, kept _ (by simp [isOrderFile])]
    have word : OneWord env.sh (pathName base q) := by
      refine words v q ?_ ?_ below
      · rw [← frame _ (by simp), node]
      · rw [← executable, isExecutable, isExecutable, frame _ (by rintro rfl; simp at below)]
    have line := init_ran store laid { env with basedir := base } zero node executable below word
    rw [record_eq, since_append _ (news_not_claimed _ _)]
    refine List.mem_append_left _ (List.mem_append_right _ (List.mem_reverse.mpr ?_))
    exact List.mem_map.mpr ⟨_, List.mem_append_right _ line, rfl⟩

/-- Only a run of the tool that succeeds adds to the count. -/
theorem counted [ToString σ] (live : w.live = true) (input : Input σ) (ends : input.ends = true)
    (counts : evolves (w.step base input).log ≠ evolves w.log) :
    ∃ env, (input = .evolve env ∨ ∃ stamp, input = .done env stamp) ∧
      (daggerEvolve { env with basedir := base } w.handle w.tree).ok = true ∧
      w.step base input = ⟨(daggerEvolve { env with basedir := base } w.handle w.tree).tree, w.handle, false,
        record (daggerEvolve { env with basedir := base } w.handle w.tree) w.log⟩ := by
  cases input with
  | claim faults => simp [Input.ends] at ends
  | op op => simp [Input.ends] at ends
  | abandon stamp => simp [World.step, live] at counts
  | evolve env =>
    simp only [World.step, live, if_true] at counts ⊢
    rw [record_eq, evolves_news] at counts
    exact ⟨env, .inl rfl, by simpa using counts, rfl⟩
  | done env stamp =>
    have ok : (daggerEvolve { env with basedir := base } w.handle w.tree).ok = true := by
      by_contra notOk
      rw [Bool.not_eq_true] at notOk
      simp only [World.step, live, if_true, daggerEvolveOrAbandon, notOk, Bool.false_eq_true,
        if_false] at counts
      split at counts
      · rw [record_eq, evolves_news] at counts
        simp [notOk] at counts
      · rw [record_eq, evolves_news] at counts
        simp at counts
    exact ⟨env, .inr ⟨stamp, rfl⟩, ok, by simp [World.step, live, daggerEvolveOrAbandon, ok]⟩

theorem ending [ToString σ] (inv : Inv base w) (nonempty : base ≠ "") (input : Input σ)
    (ends : input.ends = true) : Inv base (w.step base input) := by
  cases live : w.live with
  | false => cases input <;> simp_all [World.step, Input.ends]
  | true =>
    by_cases failed : evolves (w.step base input).log = evolves w.log
    · obtain ⟨t, events, same, store, frame, quiet, other⟩ := inv.failure live nonempty input ends failed
      rw [same]
      exact ⟨by simpa only [evolves_append events w.log quiet] using store, by simp⟩
    · obtain ⟨env, _, ok, same⟩ := counted live input ends failed
      rw [same]
      exact inv.evolved live nonempty env ok

theorem ending_ran [ToString σ] (inv : Inv base w) (ran : Ran base w) (nonempty : base ≠ "") (input : Input σ)
    (worded : input.Worded base w) (ends : input.ends = true) : Ran base (w.step base input) := by
  cases live : w.live with
  | false => cases input <;> simp_all [World.step, Input.ends]
  | true =>
    by_cases failed : evolves (w.step base input).log = evolves w.log
    · obtain ⟨t, events, same, store, frame, quiet, other⟩ := inv.failure live nonempty input ends failed
      rw [same, Ran, evolves_append events w.log quiet]
      exact fun positive => (ran positive).mono (fun q settled => frame q settled.outside) events (other _)
    · obtain ⟨env, tool, ok, same⟩ := counted live input ends failed
      rw [same]
      refine inv.evolved_ran live nonempty env ?_ ok
      rcases tool with rfl | ⟨stamp, rfl⟩
      · exact worded
      · exact worded

theorem step [ToString σ] (inv : Inv base w) (nonempty : base ≠ "") (input : Input σ) :
    Inv base (w.step base input) := by
  cases input with
  | claim faults => exact inv.claim faults
  | op op => exact inv.op op
  | abandon stamp => exact inv.ending nonempty _ rfl
  | evolve env => exact inv.ending nonempty _ rfl
  | done env stamp => exact inv.ending nonempty _ rfl

theorem step_ran [ToString σ] (inv : Inv base w) (ran : Ran base w) (nonempty : base ≠ "") (input : Input σ)
    (worded : input.Worded base w) : Ran base (w.step base input) := by
  cases input with
  | claim faults => exact inv.claim_ran ran faults
  | op op => exact inv.op_ran ran op
  | abandon stamp => exact inv.ending_ran ran nonempty _ worded rfl
  | evolve env => exact inv.ending_ran ran nonempty _ worded rfl
  | done env stamp => exact inv.ending_ran ran nonempty _ worded rfl

theorem run [ToString σ] (inv : Inv base w) (nonempty : base ≠ "") (inputs : List (Input σ)) :
    Inv base (w.run base inputs) := by
  induction inputs generalizing w with
  | nil => exact inv
  | cons input rest ih => exact ih (inv.step nonempty input)

theorem run_ran [ToString σ] (inv : Inv base w) (ran : Ran base w) (nonempty : base ≠ "") (inputs : List (Input σ))
    (worded : w.Worded base inputs) : Ran base (w.run base inputs) := by
  induction inputs generalizing w with
  | nil => exact ran
  | cons input rest ih =>
    exact ih (inv.step nonempty input) (inv.step_ran ran nonempty input worded.1) worded.2

end Inv

/-- In every history whose init scripts are words to the shell the generation that
`current` names is there, has had its init scripts run with success since it was claimed,
and counts the evolves. A failed evolve and an abandon leave it and `current` alone. -/
theorem store_consistent [ToString σ] (base : String) (plain : isPlainWord base.toList = true)
    (inputs : List (Input σ)) (worded : World.initial.Worded base inputs) :
    let w := World.run base .initial inputs
    (∀ node, w.tree.get ["current"] = some node → ∃ (n : Int) (x : Bool),
      node = .file [.num n] x ∧ w.tree.get [genName n] = some .dir ∧
      HasRun base n w.tree w.log ∧ n = (evolves w.log : Int) - 1) ∧
    ∀ input, input.ends = true → evolves (w.step base input).log = evolves w.log →
      (w.step base input).tree.get ["current"] = w.tree.get ["current"] ∧
      ∀ (n : Int) (x : Bool), w.tree.get ["current"] = some (.file [.num n] x) →
        ∀ r, (w.step base input).tree.get (genName n :: r) = w.tree.get (genName n :: r) := by
  intro w
  have nonempty : base ≠ "" := by
    rintro rfl
    exact absurd plain (by decide)
  have inv : Inv base w := (Inv.initial base).run nonempty inputs
  have ran : Ran base w := (Inv.initial base).run_ran (by simp [Ran, World.initial, evolves]) nonempty inputs worded
  have generation (node : Node (Item σ)) (found : w.tree.get ["current"] = some node) :
      0 < evolves w.log ∧ ∃ x, node = .file [.num (evolves w.log - 1)] x := by
    have positive : 0 < evolves w.log := by
      by_contra zero
      simp [inv.store.first (by omega)] at found
    obtain ⟨x, present⟩ := inv.store.current positive
    exact ⟨positive, x, by simpa [found] using present⟩
  constructor
  · intro node found
    obtain ⟨positive, x, rfl⟩ := generation node found
    exact ⟨_, x, rfl, inv.store.generation positive, ran positive, rfl⟩
  · intro input ends failed
    cases live : w.live with
    | false =>
      have same : w.step base input = w := by cases input <;> simp_all [World.step, Input.ends]
      rw [same]
      exact ⟨rfl, fun _ _ _ _ => rfl⟩
    | true =>
      obtain ⟨t, events, same, _, frame, _⟩ := inv.failure live nonempty input ends failed
      rw [same]
      refine ⟨frame _ (.inl rfl), fun n x found r => frame _ (.inr ⟨n, r, ?_, rfl⟩)⟩
      obtain ⟨_, _, content⟩ := generation _ found
      simp only [Node.file.injEq, List.cons.injEq, Item.num.injEq, and_true] at content
      omega

/-- The transaction with one node and scripts of priority 50, up to its end. -/
def scriptsOpened (scripts : List ScriptName) : List (Input String) :=
  [.claim fun _ => false, .op (.addNode ⟨"eth0", by decide⟩)] ++
    scripts.map fun script => .op (.fopen .init ⟨"eth0", by decide⟩ 50 script)

/-- A complete first transaction with one node and one script. -/
def firstCommit : List (Input String) :=
  scriptsOpened [⟨"init.ip", by decide⟩] ++
    [.done (plainEnv [["/run/net/0/action/init/eth0/50-init.ip"]]) firstDay]

private theorem firstCommit_worded : World.initial.Worded "/run/net" firstCommit := by
  refine ⟨trivial, trivial, trivial, fun v q _ runs below => ?_, trivial⟩
  let w := World.run "/run/net" .initial (scriptsOpened [⟨"init.ip", by decide⟩])
  have executable : w.tree.executables ["0", "action", "init"] = [scriptPath 0 "init" "eth0" 50 "init.ip"] := by
    decide +kernel
  have file : q ∈ w.tree.executables ["0", "action", "init"] :=
    mem_executables.mpr ⟨(List.prefix_append _ [v]).trans below, isExecutable_iff.mp runs⟩
  rw [executable, List.mem_singleton] at file
  subst file
  unfold OneWord
  decide +kernel

/-- After a first commit the script of its node has been run. -/
theorem store_consistent_firstCommit :
    (World.run "/run/net" .initial firstCommit).tree.get ["current"] = some (.file [.num 0] false) ∧
    HasRun "/run/net" 0 (World.run "/run/net" .initial firstCommit).tree
      (World.run "/run/net" .initial firstCommit).log := by
  have found : (World.run "/run/net" .initial firstCommit).tree.get ["current"] =
      some (.file [.num 0] false) := by decide +kernel
  refine ⟨found, ?_⟩
  obtain ⟨n, x, same, _, ran, _⟩ :=
    (store_consistent "/run/net" (by decide) firstCommit firstCommit_worded).1 _ found
  cases same
  exact ran

/-- The name of the one script is a pattern that the other one matches. -/
def patternShell : Shell where
  glob w := if w = "/run/net/0/action/init/eth0/50-[a]" then ["/run/net/0/action/init/eth0/50-a"] else [w]
  glob_nonempty w := by split <;> simp
  glob_plain w plain := by
    rw [if_neg]
    rintro rfl
    exact absurd (plain '[' (by decide)) (by decide)

/-- The tool in the place of the script runs the one that matches a second time. -/
def patternCommit : List (Input String) :=
  scriptsOpened [⟨"a", by decide⟩, ⟨"[a]", by decide⟩] ++
    [.done ⟨patternShell, "/run/net", .listed, fun argv => if argv = ["/run/net/0/action/init/eth0/50-a"] then 0 else 127⟩
      firstDay]

/-- A generation becomes the current one although one of its init scripts has not been run. -/
theorem pattern_never_run :
    let w := World.run "/run/net" .initial patternCommit
    w.tree.get ["current"] = some (.file [.num 0] false) ∧
    w.tree.isExecutable (scriptPath 0 "init" "eth0" 50 "[a]") = true ∧
    (∀ status, .ran ["/run/net/0/action/init/eth0/50-[a]"] status ∉ w.log) ∧
    ¬HasRun "/run/net" 0 w.tree w.log := by
  intro w
  have node : w.tree.get ["0", "dag", "eth0"] = some .dir := by decide +kernel
  have runs : w.tree.isExecutable (scriptPath 0 "init" "eth0" 50 "[a]") = true := by decide +kernel
  have log : w.log = [.evolved, .ran ["/run/net/0/action/init/eth0/50-a"] 0,
      .ran ["/run/net/0/action/init/eth0/50-a"] 0, .claimed 0] := by decide +kernel
  have never : ∀ status, .ran ["/run/net/0/action/init/eth0/50-[a]"] status ∉ w.log := by
    intro status
    rw [log]
    simp
  refine ⟨by decide +kernel, runs, never, fun ran => never 0 ?_⟩
  have logged := ran.scripts (v := "eth0") node runs (by decide)
  exact List.takeWhile_subset _ logged

/-- What giving a transaction up is to restore: the current generation, the
`current` file and the free lock, so that the next claim goes through. -/
structure Undone (base : String) (c : Int) (before after : Base σ) : Prop where
  generation : ∀ r, after.get (genName c :: r) = before.get (genName c :: r)
  current : after.get ["current"] = before.get ["current"]
  lock : after.get ["next"] = before.get ["next"]
  retry : ∀ d, (daggerClaim (fun _ => false) base d after).ok = true

/-- The inputs that give a transaction up if it does not succeed. -/
def Input.givesUp : Input σ → Bool
  | .abandon _ | .done _ _ => true
  | _ => false

theorem run_ops [ToString σ] (base : String) (w : World σ) (ops : List (Op σ)) :
    (w.run base (ops.map .op)).log = w.log ∧ (w.run base (ops.map .op)).live = w.live := by
  induction ops generalizing w with
  | nil => exact ⟨rfl, rfl⟩
  | cons op rest ih =>
    have step : (w.step base (.op op)).log = w.log ∧ (w.step base (.op op)).live = w.live := by
      simp only [World.step]
      split
      · exact ⟨rfl, rfl⟩
      · exact ⟨rfl, rfl⟩
    have after := ih (w.step base (.op op))
    rw [step.1, step.2] at after
    exact after

/-- The transaction that `ops` make up, claimed in `s` and ended by `input`. -/
def World.transaction [ToString σ] (base : String) (s : World σ) (faults : Faults) (ops : List (Op σ))
    (input : Input σ) : World σ :=
  ((s.step base (.claim faults)).run base (ops.map .op)).step base input

/-- No transaction over a current generation is undone by giving it up: the
claim has put a link into the current generation that stays, and on account of
it every later claim fails. -/
theorem abandon_never_undone [ToString σ] (base : String) (nonempty : base ≠ "") (s : World σ) (reachable : Reachable base s)
    (current : s.tree.get ["current"] = some (.file [.num c] x)) (faults : Faults)
    (claimed : (s.step base (.claim faults)).live = true) (ops : List (Op σ)) (input : Input σ)
    (ends : input.givesUp = true)
    (failed : evolves (s.transaction base faults ops input).log = evolves s.log) :
    ¬Undone base c s.tree (s.transaction base faults ops input).tree ∧
    ∀ again d, (daggerClaim again base d (s.transaction base faults ops input).tree).ok = false := by
  obtain ⟨inputs, rfl⟩ := reachable
  have inv := (Inv.initial (σ := σ) base).run nonempty inputs
  generalize World.run base .initial inputs = s at *
  have positive : 0 < evolves s.log := by
    by_contra zero
    simp [inv.store.first (by omega)] at current
  have generation : c = evolves s.log - 1 := by
    obtain ⟨y, found⟩ := inv.store.current positive
    rw [current] at found
    simp only [Option.some.injEq, Node.file.injEq, List.cons.injEq, Item.num.injEq, and_true] at found
    exact found.1
  have opened : s.tree.get (exitOrder (evolves s.log - 1)) = none :=
    ((daggerClaim_effect inv.store faults base s.handle).opened claimed).2.2.1 positive
  have count := Inv.claim_log s base faults
  have open_ := (inv.claim faults).run nonempty (ops.map .op)
  obtain ⟨sameLog, sameLive⟩ := run_ops base (s.step base (.claim faults)) ops
  rw [World.transaction] at failed ⊢
  generalize (s.step base (.claim faults)).run base (ops.map .op) = w at open_ sameLog sameLive failed ⊢
  have same : evolves w.log = evolves s.log := by rw [sameLog, count]
  have live : w.live = true := by rw [sameLive, claimed]
  have linked := (open_.live live).1.previous (by omega)
  obtain ⟨t, events, result, store, frame, _⟩ := open_.failure live nonempty input
    (by cases input <;> simp_all [Input.givesUp, Input.ends]) (by rw [failed, same])
  have stays : t.get (exitOrder (evolves s.log - 1)) = some (.link toTopDown) := by
    rw [same] at linked frame
    exact (frame _ (.inr ⟨evolves s.log - 1, _, by omega, rfl⟩)).trans linked
  rw [result]
  constructor
  · intro undone
    have slot := undone.generation ["action", "exit", "order"]
    rw [generation] at slot
    rw [exitOrder] at stays opened
    simp [stays, opened] at slot
  · intro again d
    by_contra ok
    rw [Bool.not_eq_false] at ok
    have free := ((daggerClaim_effect store again base d).opened ok).2.2.1 (by omega)
    rw [same, stays] at free
    simp at free

/-- Giving up the second transaction leaves the link in generation 0. -/
theorem abandon_second_commit :
    let s := World.run "/run/net" .initial firstCommit
    s.tree.get ["current"] = some (.file [.num 0] false) ∧ s.tree.get ["next"] = none ∧
    (s.step "/run/net" (.claim fun _ => false)).live = true ∧
    ¬Undone "/run/net" 0 s.tree
      (s.transaction "/run/net" (fun _ => false) [] (.abandon ⟨"2023-06-06", by decide⟩)).tree := by
  refine ⟨by decide +kernel, by decide +kernel, by decide +kernel, fun undone => ?_⟩
  have slot := undone.generation ["action", "exit", "order"]
  exact absurd slot (by decide +kernel)

/-- The same history meets the conditions of the general result. -/
theorem abandon_never_undone_second :
    (daggerClaim (fun _ => false) "/run/net" .zero
      ((World.run "/run/net" .initial firstCommit).transaction "/run/net" (fun _ => false) []
        (.abandon ⟨"2023-06-06", by decide⟩)).tree).ok = false :=
  (abandon_never_undone "/run/net" (by decide) (World.run "/run/net" .initial firstCommit)
    ⟨firstCommit, rfl⟩ (c := 0) (x := false) (by decide +kernel) (fun _ => false) (by decide +kernel) []
    (.abandon ⟨"2023-06-06", by decide⟩) rfl (by decide +kernel)).2 (fun _ => false) .zero

end Dagger
