import InfixOS.Dagger.Claim

/-! The two ways a transaction ends. Abandoning renames the generation and
takes the lock away; evolving runs the scripts of both generations and makes
the lock file the new `current`. -/
namespace Dagger
open Posix Posix.FileTree

variable {σ : Type}

/-- What ending a transaction leaves alone, the generation `k` being its own. -/
def Outside (k : Nat) (q : Path) : Prop :=
  q = ["current"] ∨ ∃ (m : Int) (r : Path), m ≠ k ∧ q = genName m :: r

theorem Outside.not_own (outside : Outside k q) : ¬[genName k] <+: q := by
  rintro ⟨s, rfl⟩
  rcases outside with same | ⟨m, r, different, same⟩
  · exact genName_ne_current _ (List.cons.inj same).1
  · exact different (genName_inj.mp (List.cons.inj same).1.symm)

theorem Outside.not_next (outside : Outside k q) : ¬["next"] <+: q := by
  rintro ⟨s, rfl⟩
  rcases outside with same | ⟨m, r, _, same⟩
  · simp at same
  · exact genName_ne_next m (List.cons.inj same).1.symm

/-- The name an abandoned generation is given. -/
def abandonedName (k : Nat) (stamp : String) : String := genName k ++ "-ABANDONED-" ++ stamp

theorem abandonedName_ne (other : 'A' ∉ s.toList) : abandonedName k stamp ≠ s := by
  rintro rfl
  exact other (by simp [abandonedName])

theorem abandonedName_ne_genName (k : Nat) (stamp : String) (m : Int) : abandonedName k stamp ≠ genName m := by
  apply abandonedName_ne
  intro member
  rcases genName_chars m 'A' member with digit | sign
  · simp at digit
  · simp at sign

/-- Where the abandoned generation goes: under a name of its own, or into a
directory that already has that name. -/
inductive Resting (t : Base σ) (k : Nat) (stamp : String) : Path → Prop
  | own : Resting t k stamp [abandonedName k stamp]
  | inside (found : t.get [abandonedName k stamp] = some .dir) :
      Resting t k stamp [abandonedName k stamp, genName k]

namespace Resting
variable {k : Nat} {t : Base σ}

theorem apart (resting : Resting t k stamp dst) : Apart [genName k] dst := by
  have different := abandonedName_ne_genName k stamp k
  cases resting with
  | own => exact ⟨by simp [different.symm], by simp [different]⟩
  | inside => exact ⟨by simp [different.symm], by simp [different]⟩

theorem head (resting : Resting t k stamp dst) (below : dst <+: c :: r) : c = abandonedName k stamp := by
  cases resting with
  | own => exact (List.cons_prefix_cons.mp below).1.symm
  | inside => exact (List.cons_prefix_cons.mp below).1.symm

theorem outside (resting : Resting t k stamp dst) (outside : Outside k q) : ¬dst <+: q := by
  intro below
  rcases outside with rfl | ⟨m, r, _, rfl⟩
  · exact abandonedName_ne (by decide) (resting.head below).symm
  · exact abandonedName_ne_genName k stamp m (resting.head below).symm

end Resting

/-- The base directory after its generation `k` has been put to rest. -/
def rested (t : Base σ) (k : Nat) (dst : Path) : Base σ := (t.rename [genName k] dst).prune ["next"]

theorem rested_outside {k : Nat} {t : Base σ} (resting : Resting t k stamp dst)
    (outside : Outside k q) : (rested t k dst).get q = t.get q := by
  rw [rested, get_prune_of_not _ outside.not_next,
    get_rename_frame t resting.apart outside.not_own (resting.outside outside)]

theorem rested_own {k : Nat} {t : Base σ} (resting : Resting t k stamp dst) (r : Path) :
    (rested t k dst).get (genName k :: r) = none := by
  rw [rested, get_prune]
  split
  · rfl
  · exact get_rename_source t resting.apart (by simp)

/-- The store is in order once its open generation has been put to rest. -/
theorem Store.rested {k : Nat} {t : Base σ} (store : Store k t) (resting : Resting t k stamp dst)
    (present : t.get [genName k] = some .dir) : Store k (rested t k dst) where
  proper := by
    refine (store.proper.rename resting.apart ?_).prune _
    cases resting with
    | own => exact store.root (c := genName k) (by simp [present])
    | inside found => exact found
  nodes := by
    intro m r present
    by_cases own : m = k
    · rw [own, rested_own resting] at present
      simp at present
    · rw [rested_outside resting (.inr ⟨m, _, own, rfl⟩)] at present
      exact store.nodes present
  top := by
    intro s target linked
    rw [Dagger.rested, get_prune] at linked
    split at linked
    · simp at linked
    · rw [get_rename t resting.apart] at linked
      split at linked
      · rename_i below
        cases resting with
        | own =>
          simp at linked
          exact store.top linked
        | inside => simpa using below.length_le
      · split at linked
        · simp at linked
        · exact store.top linked
  links := by
    intro m r target linked
    by_cases own : m = k
    · rw [own, rested_own resting] at linked
      simp at linked
    · rw [rested_outside resting (.inr ⟨m, r, own, rfl⟩)] at linked
      exact store.links linked
  first := fun zero => by rw [rested_outside resting (.inl rfl), store.first zero]
  current := fun positive => by
    rw [rested_outside resting (.inl rfl)]
    exact store.current positive
  lock := .inl (by rw [Dagger.rested, get_prune, if_pos (List.prefix_refl _)])
  later := fun past => by
    rw [rested_outside resting (.inr ⟨_, _, by omega, rfl⟩)]
    exact store.later past
  fresh := fun _ => rested_own resting _
  bottomUp := fun positive => by
    rw [rested_outside resting (.inr ⟨_, _, by omega, rfl⟩)]
    exact store.bottomUp positive
  topDown := fun positive => by
    rw [rested_outside resting (.inr ⟨_, _, by omega, rfl⟩)]
    exact store.topDown positive
  slot := by
    have kept := rested_outside resting (q := exitOrder (k - 1)) (.inr ⟨k - 1, _, by omega, rfl⟩)
    rw [kept]
    exact store.slot

/-- Abandoning puts the generation to rest, or fails and leaves everything. -/
theorem doAbandon_cases [ToString σ] {k : Nat} {t : Base σ} (store : Store k t)
    (next : t.get ["next"] = some (.file [.num k] x)) (present : t.get [genName k] = some .dir)
    (stamp : String) : (doAbandon stamp t).1 = t ∨
      ∃ dst, Resting t k stamp dst ∧ (doAbandon stamp t).1 = rested t k dst := by
  have word : catWord t ["next"] = genName k := catWord_num (t.cat_file next)
  have ready : genName k ≠ "" ∧ t.isDir [genName k] = true :=
    ⟨genName_ne_empty k, t.isDir_of_get present⟩
  have effect := t.mv_effect [genName k] [abandonedName k stamp]
  have resting : Resting t k stamp (t.destination ([genName k].getLastD "") [abandonedName k stamp]) := by
    cases found : t.isDir [abandonedName k stamp] with
    | false =>
      rw [t.destination_of_not_dir found]
      exact .own
    | true =>
      have dir : t.get [abandonedName k stamp] = some .dir := by
        rw [isDir_iff, t.resolve_of_not_link fun target => store.top] at found
        exact found
      rw [t.destination_of_dir dir]
      exact .inside dir
  simp only [doAbandon, word, if_pos ready]
  rw [show genName k ++ "-ABANDONED-" ++ stamp = abandonedName k stamp from rfl]
  generalize t.destination ([genName k].getLastD "") [abandonedName k stamp] = dst at effect resting
  generalize t.mv [genName k] [abandonedName k stamp] = r at effect ⊢
  cases effect with
  | refused => exact .inl rfl
  | renamed apart =>
    refine .inr ⟨dst, resting, ?_⟩
    have kept : (t.rename [genName k] dst).get ["next"] = t.get ["next"] := by
      apply get_rename_frame t apart
      · simp
      · exact fun below => abandonedName_ne (by decide) (resting.head below).symm
    simp only [rm, kept, next]
    rfl

theorem doAbandon_store [ToString σ] {k : Nat} {t : Base σ} (store : Store k t)
    (next : t.get ["next"] = some (.file [.num k] x)) (present : t.get [genName k] = some .dir)
    (stamp : String) : Store k (doAbandon stamp t).1 ∧
      ∀ q, Outside k q → (doAbandon stamp t).1.get q = t.get q := by
  rcases doAbandon_cases store next present stamp with same | ⟨dst, resting, same⟩
  · rw [same]
    exact ⟨store, fun q _ => rfl⟩
  · rw [same]
    exact ⟨store.rested resting present, fun q outside => rested_outside resting outside⟩

/-- Before the tool is called the lock file gets its content. -/
theorem announce_effect {k : Nat} {t : Base σ} (store : Store k t)
    (next : t.get ["next"] = some (.file [] x)) (base : String) :
    let u := announce ⟨k - 1, k, some ["next"], base⟩ t
    Store k u ∧ u.get ["next"] = some (.file [.num k] x) ∧ ∀ q, q ≠ ["next"] → u.get q = t.get q := by
  intro u
  have writes : Writes (fun q n => q = ["next"] ∧ ∃ data x, n = .file data x) t u :=
    t.append_writes ["next"] [.num k]
  refine ⟨?_, ?_, fun q other => writes.frame fun n fine => other fine.1⟩
  · refine writes.keeps (fun v q n before write fine => before.put write ?_) store
    obtain ⟨rfl, data, x, rfl⟩ := fine
    exact .next data x
  · simp [u, announce, append, next]

namespace Store
variable {k : Nat} {t : Base σ}

/-- The order files of the current generation are there, so nothing is generated. -/
theorem generateOrder_current (store : Store k t) (positive : 0 < k) (enum : Enumeration) :
    generateOrder enum t [genName (k - 1)] = (t, true) := by
  obtain ⟨data, x, bottom⟩ := store.bottomUp positive
  obtain ⟨data', x', top⟩ := store.topDown positive
  have present : (t.isFile ([genName (k - 1)] ++ ["bottom-up-order"]) &&
      t.isFile ([genName (k - 1)] ++ ["top-down-order"])) = true := by
    rw [Bool.and_eq_true]
    exact ⟨t.isFile_iff.mpr ⟨data, x, by
        rw [List.singleton_append, t.resolve_of_get (.inr (.inr ⟨_, _, bottom⟩)), bottom]⟩,
      t.isFile_iff.mpr ⟨data', x', by
        rw [List.singleton_append, t.resolve_of_get (.inr (.inr ⟨_, _, top⟩)), top]⟩⟩
  rw [generateOrder, if_pos present]

theorem catWord_current [ToString σ] (store : Store k t) :
    catWord t ["current"] = if 0 < k then genName (k - 1) else "" := by
  split
  · rename_i positive
    obtain ⟨x, found⟩ := store.current positive
    exact catWord_num (t.cat_file found)
  · rename_i zero
    exact catWord_empty (t.cat_missing (store.first (by omega)))

/-- The exit phase runs scripts and changes nothing in the base directory. -/
theorem exitPhase_tree [ToString σ] (store : Store k t) (env : Env) :
    (exitPhase env t (catWord t ["current"])).tree = t := by
  rw [store.catWord_current]
  split
  · rename_i positive
    simp only [exitPhase, if_pos (genName_ne_empty _), actionExec,
      store.generateOrder_current positive]
  · simp [exitPhase]

end Store

/-- The nodes the tool finds in the generation of a transaction. -/
def dagNodes (enum : Enumeration) (t : Base σ) (k : Nat) : List String :=
  Graph.unseen [] (findDepth enum t [genName k, "dag"])

namespace Laid
variable {k : Nat} {t : Base σ}

theorem dir (laid : Laid k t) (proper : t.Proper) : t.get [genName k] = some .dir := by
  have init := proper [genName k, "action", "init"] "order" (by simp [laid.order])
  have action := proper [genName k, "action"] "init" (by simp [init])
  exact proper [genName k] "action" (by simp [action])

theorem bottom_writable (laid : Laid k t) (proper : t.Proper) :
    t.Writable ([genName k] ++ ["bottom-up-order"]) := .inl ⟨laid.bottomUp, laid.dir proper⟩

theorem top_writable (laid : Laid k t) (proper : t.Proper) :
    t.Writable ([genName k] ++ ["top-down-order"]) := .inl ⟨laid.topDown, laid.dir proper⟩

theorem stale (laid : Laid k t) : (t.isFile ([genName k] ++ ["bottom-up-order"]) &&
    t.isFile ([genName k] ++ ["top-down-order"])) = false := by
  have missing := laid.bottomUp
  simp [isFile, t.resolve_of_get (.inr (.inl missing)), missing]

/-- The init action lists every node of the dag directory. -/
theorem ready (laid : Laid k t) (store : Store k t) (enum : Enumeration) :
    Ready enum t k "init" (dagNodes enum t k) where
  bottom := laid.bottom_writable store.proper
  top := laid.top_writable store.proper
  listed := by
    obtain ⟨_, ⟨x, content⟩, _⟩ := generateOrder_content enum t [genName k]
      (laid.bottom_writable store.proper) (laid.top_writable store.proper) laid.stale
    have writes := generateOrder_writes enum t [genName k]
      (laid.bottom_writable store.proper) (laid.top_writable store.proper)
    have link := writes.grows.link laid.order
    generalize (generateOrder enum t [genName k]).1 = u at content link
    have reached : u.resolve [genName k, "action", "init", "order"] = [genName k, "bottom-up-order"] := by
      rw [resolve, follow, link]
      simp only [walk]
      apply u.follow_of_not_link
      simp only [List.cons_append, List.nil_append] at content
      simp [content]
    have file : u.isFile [genName k, "action", "init", "order"] = true :=
      u.isFile_iff.mpr ⟨_, x, by rw [reached]; exact content⟩
    have orderFile : orderFile u [genName k] "init" = [genName k, "action", "init", "order"] := by
      simp [Dagger.orderFile, file]
    rw [orderFile]
    exact u.cat_of_get (by rw [reached]; exact content)
  distinct := Graph.unseen_nodup _ _
  tidy := laid.named

end Laid

/-- A link of the dag directory leads to another entry of it. -/
theorem Store.resolve_dag {k : Nat} {t : Base σ} (store : Store k t) (m : Int) (r : Path) :
    ∃ s, t.resolve (genName m :: "dag" :: r) = genName m :: "dag" :: s := by
  have plain (v : String) : ∀ target, t.get [genName m, "dag", v] ≠ some (.link target) := by
    intro target linked
    rcases store.links linked with ⟨_, bad⟩ | ⟨_, _, bad, _⟩
    · simp at bad
    · simp at bad
  by_cases linked : ∃ target, t.get (genName m :: "dag" :: r) = some (.link target)
  · obtain ⟨target, linked⟩ := linked
    rcases store.links linked with ⟨_, bad⟩ | ⟨v, c, same, rfl, other⟩
    · simp at bad
    · obtain rfl : r = [v, c] := by simpa using same
      refine ⟨[c], ?_⟩
      rw [resolve, follow, linked]
      simp only [walk, List.foldl_cons, List.foldl_nil, if_true, if_neg other]
      exact t.follow_of_not_link (plain c)
  · exact ⟨r, t.resolve_of_not_link fun target found => linked ⟨target, found⟩⟩

theorem Store.dagNodes_word {k : Nat} {t : Base σ} (store : Store k t) (enum : Enumeration)
    (member : node ∈ dagNodes enum t k) : Literal node ∧ node ≠ "" := by
  have listed := (Graph.mem_unseen.mp member).1
  obtain ⟨q, ⟨r, rfl⟩, entry⟩ := findDepth_entry enum t (P := fun q => ∃ r, q = genName k :: "dag" :: r)
    (by rintro d c ⟨r, rfl⟩ -; exact store.resolve_dag k (r ++ [c])) (fun _ => store.resolve_dag k []) listed
  exact store.nodes entry node (by simp)

theorem Store.dagNodes_kept {k : Nat} {t : Base σ} (store : Store k t) (enum : Enumeration) (sh : Shell) :
    NodesKept sh (dagNodes enum t k) := by
  intro node member
  obtain ⟨literal, nonempty⟩ := store.dagNodes_word enum member
  exact expand_literal sh literal nonempty

/-- The base directory with the order files of the open generation. -/
def ordered (enum : Enumeration) (t : Base σ) (k : Nat) : Base σ := (generateOrder enum t [genName k]).1

/-- The command lines of the init action. -/
def initLines (env : Env) (t : Base σ) (k : Nat) : List (List String) :=
  (phase t k "init" (dagNodes env.enum t k)).flatMap (commandLines env)

/-- The three ways an evolve can come out. -/
inductive Evolved (env : Env) (k : Nat) (t : Base σ) : Outcome σ → Prop
  | exitFailed (trace : Trace) : Evolved env k t ⟨t, false, trace⟩
  | initFailed (trace : Trace) : Evolved env k t ⟨ordered env.enum t k, false, trace⟩
  | succeeded (trace : Trace) (zero : allZero env.exit (initLines env t k) = true) :
      Evolved env k t ⟨(ordered env.enum t k).rename ["next"] ["current"], true,
        trace ++ upToFailure env.exit (initLines env t k)⟩

section Ordered
variable {k : Nat} {t : Base σ}

theorem ordered_writes (store : Store k t) (laid : Laid k t) (enum : Enumeration) :
    Writes (fun q n => isOrderFile [genName k] q ∧ ∃ data x, n = .file data x) t (ordered enum t k) :=
  generateOrder_writes enum t [genName k] (laid.bottom_writable store.proper)
    (laid.top_writable store.proper)

theorem ordered_frame (store : Store k t) (laid : Laid k t) (enum : Enumeration)
    (other : ¬isOrderFile [genName k] q) : (ordered enum t k).get q = t.get q :=
  (ordered_writes store laid enum).frame fun _ fine => other fine.1

theorem ordered_store (store : Store k t) (laid : Laid k t) (locked : (t.get ["next"]).isSome)
    (enum : Enumeration) : Store k (ordered enum t k) := by
  refine store.writes locked (ordered_writes store laid enum) ?_
  rintro v q n held ⟨file, data, x, rfl⟩
  refine .below ?_ ?_ (by simp) held ?_
  · rcases file with rfl | rfl
    · simp
    · simp
  · rcases file with rfl | rfl
    · exact .inr ⟨k, _, by omega, rfl⟩
    · exact .inr ⟨k, _, by omega, rfl⟩
  · rcases file with rfl | rfl
    · simp [exitOrder]
    · simp [exitOrder]

theorem ordered_next (store : Store k t) (laid : Laid k t) (enum : Enumeration) :
    (ordered enum t k).get ["next"] = t.get ["next"] :=
  ordered_frame store laid enum (not_isOrderFile (by simp))

theorem current_writable (store : Store k t) (present : (t.get ["next"]).isSome) :
    t.Writable ["current"] := by
  by_cases positive : 0 < k
  · obtain ⟨x, found⟩ := store.current positive
    exact .inr ⟨_, x, found⟩
  · exact .inl ⟨store.first (by omega), store.root present⟩

theorem doEvolve_cases [ToString σ] (store : Store k t) (laid : Laid k t)
    (next : t.get ["next"] = some (.file [.num k] x)) (env : Env) :
    Evolved env k t (doEvolve env t) := by
  have held : (t.get ["next"]).isSome := by simp [next]
  have dir := laid.dir store.proper
  have initEq := (laid.ready store env.enum).actionExec_eq env store.proper
  rw [(store.dagNodes_kept env.enum env.sh).visited_eq] at initEq
  have word : catWord t ["next"] = genName k := catWord_num (t.cat_file next)
  have currentOk : ¬(catWord t ["current"] ≠ "" ∧ t.isDir [catWord t ["current"]] = false) := by
    rw [store.catWord_current]
    split
    · rename_i positive
      simp [t.isDir_of_get (store.generation positive)]
    · simp
  have nextOk : ¬(genName k = "" ∨ t.isDir [genName k] = false) := by
    simp [genName_ne_empty, t.isDir_of_get dir]
  have exitTree := store.exitPhase_tree env
  simp only [doEvolve, if_neg currentOk, word, if_neg nextOk]
  generalize exitPhase env t (catWord t ["current"]) = exit at exitTree ⊢
  obtain ⟨u, ok, trace⟩ := exit
  simp only at exitTree
  subst exitTree
  cases ok with
  | false => exact .exitFailed trace
  | true =>
    simp only [if_true, initEq]
    cases zero : allZero env.exit ((phase u k "init" (dagNodes env.enum u k)).flatMap (commandLines env)) with
    | false => exact .initFailed _
    | true =>
      have moved := mv_file (ordered env.enum u k) (by rw [ordered_next store laid, next])
        (current_writable (ordered_store store laid held env.enum)
          (by rw [ordered_next store laid, next]; rfl)) ⟨by decide, by decide⟩
      simp only [if_true]
      rw [show (generateOrder env.enum u [genName k]).1 = ordered env.enum u k from rfl, moved]
      exact .succeeded trace zero

/-- Moving the lock file to `current` makes the open generation the current one. -/
theorem evolved_store (store : Store k t) (laid : Laid k t)
    (next : t.get ["next"] = some (.file [.num k] x)) (enum : Enumeration) :
    Store (k + 1) ((ordered enum t k).rename ["next"] ["current"]) := by
  have held : (t.get ["next"]).isSome := by simp [next]
  have after := ordered_store store laid held enum
  have apart : Apart ["next"] ["current"] := ⟨by decide, by decide⟩
  have here : (ordered enum t k).get ["next"] = some (.file [.num k] x) := by
    rw [ordered_next store laid, next]
  have file : ((ordered enum t k).rename ["next"] ["current"]).get ["current"] =
      some (.file [.num k] x) := by
    simpa [here] using get_rename_target (ordered enum t k) apart []
  have gone : ((ordered enum t k).rename ["next"] ["current"]).get ["next"] = none :=
    get_rename_source _ apart (List.prefix_refl _)
  have inside (m : Int) (r : Path) : ((ordered enum t k).rename ["next"] ["current"]).get
      (genName m :: r) = (ordered enum t k).get (genName m :: r) := by
    apply get_rename_frame _ apart
    · simp [(genName_ne_next m).symm]
    · simp [(genName_ne_current m).symm]
  have slotNone : (ordered enum t k).get (exitOrder k) = none := by
    rw [ordered_frame store laid enum (by simp [exitOrder, isOrderFile]), laid.slot]
  obtain ⟨_, ⟨y, bottom⟩, z, top⟩ := generateOrder_content enum t [genName k]
    (laid.bottom_writable store.proper) (laid.top_writable store.proper) laid.stale
  have cast : ((k + 1 : Nat) : Int) - 1 = k := by omega
  constructor
  case proper => exact after.proper.rename apart (after.root (c := "next") (by simp [here]))
  case nodes =>
    intro m r present
    rw [inside] at present
    exact after.nodes present
  case top =>
    intro s target linked
    rw [get_rename _ apart] at linked
    split at linked
    · simp [here] at linked
    · split at linked
      · simp at linked
      · exact after.top linked
  case links =>
    intro m r target linked
    rw [inside] at linked
    exact after.links linked
  case first => simp
  case current => exact fun _ => ⟨x, by rw [cast]; exact file⟩
  case lock => exact .inl gone
  case later =>
    intro m r past
    rw [inside]
    exact after.later (by omega)
  case fresh =>
    intro _ r
    rw [inside]
    exact after.later (by omega)
  case bottomUp => exact fun _ => ⟨_, y, by rw [cast, inside]; exact bottom⟩
  case topDown => exact fun _ => ⟨_, z, by rw [cast, inside]; exact top⟩
  case slot =>
    rw [cast, exitOrder, inside]
    exact .inl slotNone

/-- A failed evolve leaves the lock and its generation for the abandon that
follows, and everything else as it was. -/
theorem evolve_failed [ToString σ] (store : Store k t) (laid : Laid k t)
    (next : t.get ["next"] = some (.file [.num k] x)) (env : Env)
    (failed : (doEvolve env t).ok = false) :
    Store k (doEvolve env t).tree ∧
    (doEvolve env t).tree.get ["next"] = some (.file [.num k] x) ∧
    (doEvolve env t).tree.get [genName k] = some .dir ∧
    ∀ q, Outside k q → (doEvolve env t).tree.get q = t.get q := by
  have held : (t.get ["next"]).isSome := by simp [next]
  have dir := laid.dir store.proper
  have cases := doEvolve_cases store laid next env
  generalize doEvolve env t = outcome at cases failed ⊢
  cases cases with
  | exitFailed trace => exact ⟨store, next, dir, fun _ _ => rfl⟩
  | initFailed trace =>
    refine ⟨ordered_store store laid held env.enum, by rw [ordered_next store laid, next],
      (ordered_writes store laid env.enum).grows.dir dir, fun q outside => ?_⟩
    refine ordered_frame store laid env.enum fun file => outside.not_own ?_
    rcases file with rfl | rfl
    · exact List.prefix_append _ _
    · exact List.prefix_append _ _
  | succeeded trace => simp at failed

/-- Every script of every node was among the lines that were run, if it is one word. -/
theorem init_ran (store : Store k t) (laid : Laid k t) (env : Env)
    (zero : allZero env.exit (initLines env t k) = true)
    (node : t.get [genName k, "dag", v] = some .dir) (runs : t.isExecutable q = true)
    (below : [genName k, "action", "init", v] <+: q) (word : OneWord env.sh (env.path q)) :
    ([env.path q], 0) ∈ upToFailure env.exit (initLines env t k) := by
  obtain ⟨owner, prio, script, small, rfl⟩ := laid.named q runs
    ((List.prefix_append [genName k, "action", "init"] [v]).trans below)
  simp only [scriptPath, List.cons_prefix_cons, true_and] at below
  have listed : v ∈ dagNodes env.enum t k := by
    refine Graph.mem_unseen.mpr ⟨findDepth_lists env.enum t ?_ node, by simp⟩
    exact store.proper [genName k, "dag"] v (by simp [node])
  have file : scriptPath k "init" owner prio script ∈ phase t k "init" (dagNodes env.enum t k) := by
    refine List.mem_flatMap.mpr ⟨v, by simp [listed], mem_nodeFiles.mpr ⟨prio, script, small, runs, ?_⟩⟩
    rw [below.1]
  rw [upToFailure_allZero zero]
  refine List.mem_map.mpr ⟨_, List.mem_flatMap.mpr ⟨_, file, ?_⟩, rfl⟩
  rw [commandLines, show (env.sh.expand _).map env.sh.expand = _ from word]
  exact List.mem_singleton_self _

end Ordered

end Dagger
