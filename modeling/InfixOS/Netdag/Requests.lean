import InfixOS.Dagger.Store
import InfixOS.Netdag.Acts

/-! What the requests of the generator make of the base directory: nodes, edges,
skip files and the contents of scripts can be read off the list. -/
namespace Netdag
open Dagger Posix Posix.FileTree

/-- The generation that one side of a transaction writes to. -/
def sideGen (k : Nat) : Side → Int
  | .init => k
  | .exit => k - 1

def sideText : Side → String
  | .init => "init"
  | .exit => "exit"

def scriptOf (k : Nat) (side : Side) (v : String) (script : Nat × String) : Path :=
  scriptPath (sideGen k side) (sideText side) v script.1 script.2

/-- A transaction on the generation `k` is open, with its handle. -/
structure Opened (d : Handle) (k : Nat) (t : Base Piece) : Prop where
  store : Store k t
  prepared : Prepared k t
  next : d.next = k
  current : d.current = k - 1

/-- Every name is a word, and priorities have two digits. -/
def Act.Fine : Act → Prop
  | .node v | .skip v | .test v _ => Plain v
  | .dep depender dependee => Plain depender ∧ Plain dependee
  | .fopen _ v script | .print _ v script _ => Plain v ∧ Plain script.2 ∧ script.1 ≤ 99

/-- All that a request can write. -/
def Act.Touches (k : Nat) : Act → Path → Node (Item Piece) → Prop
  | .node v, q, n => q <+: [genName k, "dag", v] ∧ n = .dir
  | .dep depender dependee, q, n => q = [genName k, "dag", depender, dependee] ∧ n = .link ["..", dependee]
  | .skip v, q, n => q = [genName k, "skip", v] ∧ n = .file [] false
  | .test _ _, _, _ => False
  | .fopen side v script, q, n => 0 ≤ sideGen k side ∧
      FopenWrite (sideGen k side) (sideText side) v script.1 script.2 q n
  | .print side v script _, q, n => 0 ≤ sideGen k side ∧ q = scriptOf k side v script ∧
      ∃ data x, n = .file data x

variable {d : Handle} {k : Nat} {t u : Base Piece} {act : Act} {acts : List Act}

theorem Opened.file_init (opened : Opened d k t) (v : String) (script : Nat × String) :
    initFile d v script = scriptOf k .init v script := by
  rw [initFile, opened.next]
  rfl

theorem Opened.file_exit (opened : Opened d k t) (v : String) (script : Nat × String) :
    exitFile d v script = scriptOf k .exit v script := by
  rw [exitFile, opened.current]
  rfl

/-- No link stands where a skip file goes. -/
theorem Opened.skip_plain (opened : Opened d k t) : t.get [genName k, "skip", v] ≠ some (.link target) := by
  intro linked
  rcases opened.store.links linked with ⟨_, bad⟩ | ⟨_, _, bad⟩
  · simp at bad
  · simp at bad

theorem Act.writes (opened : Opened d k t) (met : act.run d t = (u, true))
    (noded : ∀ a b, act = .dep a b → t.get [genName k, "dag", a] = some .dir) :
    Writes (act.Touches k) t u := by
  cases act with
  | node v =>
    have made := t.mkdirP_writes [genName k, "dag", v]
    rw [Act.run, daggerAddNode, opened.next] at met
    rwa [met] at made
  | dep a b =>
    have linked := t.lnS_writes ["..", b] [genName k, "dag", a]
    rw [Act.run, daggerAddDep, opened.next] at met
    rw [met] at linked
    refine linked.mono ?_
    rintro q n ⟨same, rfl⟩
    rw [t.destination_of_dir (noded a b rfl)] at same
    exact ⟨same, rfl⟩
  | skip v =>
    have touched := t.touch_writes [genName k, "skip", v]
    rw [t.resolve_of_not_link fun _ => opened.skip_plain] at touched
    simp only [Act.run, daggerSkipIface, opened.next, Prod.mk.injEq] at met
    rwa [met.1] at touched
  | test v answer =>
    simp only [Act.run, Prod.mk.injEq] at met
    rw [met.1]
    exact .refl
  | fopen side v script =>
    cases side with
    | init =>
      have wrote := daggerFopen_writes opened.store (k : Int) "init" v script.1 script.2
      simp only [Act.run, daggerFopenNext, opened.next, Prod.mk.injEq] at met
      rw [met.1] at wrote
      exact wrote.mono fun q n fine => ⟨by simp [sideGen], fine⟩
    | exit =>
      have wrote := daggerFopen_writes opened.store (k - 1 : Int) "exit" v script.1 script.2
      simp only [Act.run, daggerFopenCurrent, opened.current, Prod.mk.injEq] at met
      by_cases fresh : (k : Int) - 1 < 0
      · simp [fresh, isOk] at met
      · simp only [fresh, if_false] at met
        rw [met.1] at wrote
        exact wrote.mono fun q n fine => ⟨by simp only [sideGen]; omega, fine⟩
  | print side v script piece =>
    cases side with
    | init =>
      have wrote := t.append_writes (scriptOf k .init v script) [.out piece]
      simp only [Act.run, opened.file_init, Prod.mk.injEq] at met
      rw [met.1] at wrote
      exact wrote.mono fun q n fine => ⟨by simp [sideGen], fine⟩
    | exit =>
      have wrote := t.append_writes (scriptOf k .exit v script) [.out piece]
      simp only [Act.run, opened.file_exit, Prod.mk.injEq, decide_eq_true_eq] at met
      rw [met.1] at wrote
      exact wrote.mono fun q n fine => ⟨by simpa [sideGen, opened.current] using met.2, fine⟩

/-- A request with plain names does nothing that dagger's callers may not do. -/
theorem Act.Touches.opWrite (fine : act.Fine) (touches : act.Touches k q n) : OpWrite k q n := by
  cases act with
  | node v =>
    obtain ⟨above, rfl⟩ := touches
    exact .node ⟨v, fine⟩ above
  | dep a b =>
    obtain ⟨rfl, rfl⟩ := touches
    exact .dep ⟨a, fine.1⟩ ⟨b, fine.2⟩
  | skip v =>
    obtain ⟨rfl, rfl⟩ := touches
    exact .skip ⟨v, fine⟩
  | test v answer => exact touches.elim
  | fopen side v script =>
    obtain ⟨attached, write⟩ := touches
    cases side with
    | init =>
      rcases write with ⟨above, rfl⟩ | ⟨small, rfl, data, x, rfl⟩
      · exact .initDir ⟨v, fine.1⟩ above
      · exact .initScript ⟨v, fine.1⟩ ⟨script.2, fine.2.1.fits⟩ small data x
    | exit =>
      have positive : 0 < k := by simp only [sideGen] at attached; omega
      rcases write with ⟨above, rfl⟩ | ⟨small, rfl, data, x, rfl⟩
      · exact .exitDir ⟨v, fine.1⟩ positive above
      · exact .exitScript ⟨v, fine.1⟩ ⟨script.2, fine.2.1.fits⟩ positive small data x
  | print side v script piece =>
    obtain ⟨attached, rfl, data, x, rfl⟩ := touches
    cases side with
    | init => exact .initScript ⟨v, fine.1⟩ ⟨script.2, fine.2.1.fits⟩ fine.2.2 data x
    | exit =>
      have positive : 0 < k := by simp only [sideGen] at attached; omega
      exact .exitScript ⟨v, fine.1⟩ ⟨script.2, fine.2.1.fits⟩ positive fine.2.2 data x

/-- The transaction stays open. -/
theorem Opened.writes (opened : Opened d k t) (wrote : Writes (OpWrite k) t u) : Opened d k u := by
  obtain ⟨store, prepared⟩ := OpWrite.keeps wrote opened.store opened.prepared
  exact ⟨store, prepared, opened.next, opened.current⟩

/-- Requests that can be made of an open transaction: names are plain, and the
edges to be added start at nodes that are there. -/
structure Admissible (d : Handle) (k : Nat) (t : Base Piece) (acts : List Act) : Prop where
  opened : Opened d k t
  fine : ∀ act ∈ acts, act.Fine
  noded : ∀ a b, .dep a b ∈ acts → t.get [genName k, "dag", a] = some .dir

theorem Admissible.step (ready : Admissible d k t (act :: acts)) (met : act.run d t = (u, true)) :
    Admissible d k u acts ∧ Writes (act.Touches k) t u := by
  have wrote := Act.writes ready.opened met fun a b same => ready.noded a b (by simp [same])
  have fine := ready.fine act List.mem_cons_self
  refine ⟨⟨ready.opened.writes (wrote.mono fun q n touches => touches.opWrite fine), ?_, ?_⟩, wrote⟩
  · exact fun other member => ready.fine other (List.mem_cons_of_mem _ member)
  · exact fun a b member => wrote.grows.dir (ready.noded a b (List.mem_cons_of_mem _ member))

/-- What a list of requests can write, and that the transaction stays open. -/
theorem Performs.effect (performs : Performs d t acts u) (ready : Admissible d k t acts) :
    Opened d k u ∧ Writes (fun q n => ∃ act ∈ acts, act.Touches k q n) t u := by
  induction performs with
  | nil => exact ⟨ready.opened, .refl⟩
  | cons met rest ih =>
    rename_i act
    obtain ⟨next, wrote⟩ := ready.step met
    obtain ⟨last, later⟩ := ih next
    refine ⟨last, (wrote.mono fun q n touches => ?_).trans (later.mono fun q n touches => ?_)⟩
    · exact ⟨act, List.mem_cons_self, touches⟩
    · obtain ⟨other, member, touches⟩ := touches
      exact ⟨other, List.mem_cons_of_mem _ member, touches⟩

theorem Performs.grows (performs : Performs d t acts u) (ready : Admissible d k t acts) : Grows t u :=
  (performs.effect ready).2.grows

theorem Admissible.append (ready : Admissible d k t (acts ++ more)) (first : Performs d t acts u) :
    Admissible d k t acts ∧ Admissible d k u more := by
  have early : Admissible d k t acts := ⟨ready.opened,
    fun act member => ready.fine act (List.mem_append_left _ member),
    fun a b member => ready.noded a b (List.mem_append_left _ member)⟩
  refine ⟨early, (first.effect early).1, ?_, ?_⟩
  · exact fun act member => ready.fine act (List.mem_append_right _ member)
  · exact fun a b member => (first.grows early).dir (ready.noded a b (List.mem_append_right _ member))

/-- The moment at which one of the requests was met. -/
theorem Performs.moment (performs : Performs d t acts u) (ready : Admissible d k t acts)
    (member : act ∈ acts) :
    ∃ v w, Opened d k v ∧ Grows t v ∧ act.run d v = (w, true) ∧ Grows w u := by
  obtain ⟨before, after, rfl⟩ := List.append_of_mem member
  obtain ⟨v, first, rest⟩ := performs_append.mp performs
  obtain ⟨early, now⟩ := ready.append first
  cases rest with
  | cons met rest =>
    rename_i w
    exact ⟨v, w, now.opened, first.grows early, met, rest.grows (now.step met).1⟩

theorem Performs.node (performs : Performs d t acts u) (ready : Admissible d k t acts)
    (member : .node v ∈ acts) : u.get [genName k, "dag", v] = some .dir := by
  obtain ⟨before, after, now, _, met, later⟩ := performs.moment ready member
  apply later.dir
  simp only [Act.run, daggerAddNode, now.next] at met
  have plain (target : Path) : before.get [genName k, "dag", v] ≠ some (.link target) := by
    intro linked
    rcases now.store.links linked with ⟨_, bad⟩ | ⟨_, _, bad⟩
    · simp at bad
    · simp at bad
  have made := before.mkdirP_ok plain (by rw [met])
  rwa [met] at made

theorem Performs.edge (performs : Performs d t acts u) (ready : Admissible d k t acts)
    (member : .dep a b ∈ acts) : u.get [genName k, "dag", a, b] = some (.link ["..", b]) := by
  obtain ⟨before, after, now, earlier, met, later⟩ := performs.moment ready member
  apply later.link
  have dir := earlier.dir (ready.noded a b member)
  simp only [Act.run, daggerAddDep, now.next] at met
  have effect := before.lnS_effect ["..", b] [genName k, "dag", a]
  rw [met, before.destination_of_dir dir] at effect
  cases effect with
  | made missing parent => exact get_put_self _ _ _

/-- The requests that write below the dag directory. -/
theorem Act.Touches.dag_cases {act : Act} (touches : act.Touches k (genName k :: "dag" :: r) n) :
    (∃ v, act = .node v ∧ r <+: [v]) ∨ ∃ a b, act = .dep a b ∧ r = [a, b] := by
  cases act with
  | node v => exact .inl ⟨v, rfl, by simpa using touches.1⟩
  | dep a b => exact .inr ⟨a, b, rfl, by simpa using touches.1⟩
  | skip v => simp [Act.Touches] at touches
  | test v answer => exact touches.elim
  | fopen side v script =>
    obtain ⟨_, ⟨above, _⟩ | ⟨_, same, _⟩⟩ := touches
    · simp at above
    · simp [scriptPath] at same
  | print side v script piece =>
    obtain ⟨_, same, _⟩ := touches
    simp [scriptOf, scriptPath] at same

/-- Only adding an edge makes one. -/
theorem Performs.edge_asked (performs : Performs d t acts u) (ready : Admissible d k t acts)
    (other : .dep a b ∉ acts) : u.get [genName k, "dag", a, b] = t.get [genName k, "dag", a, b] := by
  refine (performs.effect ready).2.frame ?_
  rintro n ⟨act, member, touches⟩
  rcases touches.dag_cases with ⟨v, rfl, above⟩ | ⟨c, e, rfl, same⟩
  · simpa using above.length_le
  · simp only [List.cons.injEq, and_true] at same
    exact other (same.1 ▸ same.2 ▸ member)

/-- Only adding a node makes one. -/
theorem Performs.node_asked (performs : Performs d t acts u) (ready : Admissible d k t acts)
    (other : .node v ∉ acts) : u.get [genName k, "dag", v] = t.get [genName k, "dag", v] := by
  refine (performs.effect ready).2.frame ?_
  rintro n ⟨act, member, touches⟩
  rcases touches.dag_cases with ⟨w, rfl, above⟩ | ⟨a, b, rfl, same⟩
  · obtain rfl : v = w := by simpa using above
    exact other member
  · simp at same

/-- What a script holds after one more request. -/
def followed (side : Side) (v : String) (script : Nat × String) (held : Option (List Piece)) :
    Act → Option (List Piece)
  | .fopen side' v' script' => if side' = side ∧ v' = v ∧ script' = script then some [] else held
  | .print side' v' script' piece =>
    if side' = side ∧ v' = v ∧ script' = script then held.map (· ++ [piece]) else held
  | _ => held

/-- What a script holds after a list of requests. -/
def content (side : Side) (v : String) (script : Nat × String) (acts : List Act) : Option (List Piece) :=
  acts.foldl (followed side v script) none

/-- The file of a script holds these pieces after its first lines. -/
def Holds (k : Nat) (t : Base Piece) (side : Side) (v : String) (script : Nat × String)
    (held : Option (List Piece)) : Prop :=
  t.get (scriptOf k side v script) =
    held.map fun pieces => .file (interpreter script.2 ++ pieces.map .out) true

theorem scriptOf_injective (small : script.1 ≤ 99) (small' : script'.1 ≤ 99)
    (same : scriptOf k side v script = scriptOf k side' v' script') :
    side = side' ∧ v = v' ∧ script = script' := by
  obtain ⟨_, texts, rfl, prios, scripts⟩ := scriptPath_injective small small' same
  refine ⟨?_, rfl, Prod.ext prios scripts⟩
  cases side with
  | init =>
    cases side' with
    | init => rfl
    | exit => simp [sideText] at texts
  | exit =>
    cases side' with
    | init => simp [sideText] at texts
    | exit => rfl

theorem append_get {t : Base Piece} (p : Path) (data : List (Item Piece)) (found : t.get p = some (.file old x)) :
    (t.append p data).get p = some (.file (old ++ data) x) := by
  simp only [FileTree.append, found, get_put_self]

/-- A script that has been opened consists of its first lines. -/
theorem daggerFopen_content {gen : Int} (store : Store k t)
    (met : daggerFopen t gen action v prio script = (u, .ok file)) :
    u.get (scriptPath gen action v prio script) = some (.file (interpreter script) true) := by
  have made := t.mkdirP_writes [genName gen, "action", action, v]
  have kept : (t.mkdirP [genName gen, "action", action, v]).1.get (scriptPath gen action v prio script) =
      t.get (scriptPath gen action v prio script) := by
    refine made.frame fun n fine => ?_
    have short := fine.1.length_le
    simp [scriptPath] at short
  unfold daggerFopen at met
  split at met
  · simp at met
  · generalize t.mkdirP [genName gen, "action", action, v] = r at kept met
    obtain ⟨w, ok⟩ := r
    cases ok with
    | false => simp at met
    | true =>
      simp only at kept met
      have plain : w.resolve (scriptPath gen action v prio script) = scriptPath gen action v prio script :=
        w.resolve_of_not_link fun target => kept ▸ store.script_plain
      split at met
      · simp at met
      · rename_i x opened
        obtain ⟨executable, empty⟩ := openWrite_ok w opened
        rw [plain] at empty
        simp only [Prod.mk.injEq] at met
        rw [← met.1, chmodX, append_get _ _ empty]
        simp only [List.nil_append, get_put_self]

theorem fopen_content (opened : Opened d k t) (met : Act.run d t (.fopen side v script) = (u, true)) :
    u.get (scriptOf k side v script) = some (.file (interpreter script.2) true) := by
  have content (gen : Int) (action : String)
      (met : ((daggerFopen t gen action v script.1 script.2).1,
        isOk (daggerFopen t gen action v script.1 script.2).2) = (u, true)) :
      u.get (scriptPath gen action v script.1 script.2) = some (.file (interpreter script.2) true) := by
    cases result : daggerFopen t gen action v script.1 script.2 with
    | mk w outcome =>
      rw [result] at met
      cases outcome with
      | error e => simp [isOk] at met
      | ok file =>
        obtain rfl : w = u := (Prod.mk.inj met).1
        exact daggerFopen_content opened.store result
  cases side with
  | init =>
    rw [Act.run, daggerFopenNext, opened.next] at met
    exact content k "init" met
  | exit =>
    rw [Act.run, daggerFopenCurrent, opened.current] at met
    by_cases fresh : (k : Int) - 1 < 0
    · simp [fresh, isOk] at met
    · simp only [fresh, if_false] at met
      exact content (k - 1) "exit" met

theorem Holds.print (holds : Holds k t side v script held) (opened : Opened d k t)
    (met : Act.run d t (.print side v script piece) = (u, true)) :
    Holds k u side v script (held.map (· ++ [piece])) := by
  have appended : u = t.append (scriptOf k side v script) [.out piece] := by
    cases side with
    | init =>
      rw [Act.run, opened.file_init] at met
      exact (Prod.mk.inj met).1.symm
    | exit =>
      rw [Act.run, opened.file_exit] at met
      exact (Prod.mk.inj met).1.symm
  cases held with
  | none =>
    simp only [Holds, Option.map_none] at holds ⊢
    rw [appended, FileTree.append, holds]
    exact holds
  | some pieces =>
    simp only [Holds, Option.map_some] at holds ⊢
    rw [appended, append_get _ _ holds]
    simp

/-- The script after one more request. -/
theorem Holds.step (holds : Holds k t side v script held) (small : script.1 ≤ 99)
    (ready : Admissible d k t (act :: acts)) (met : act.run d t = (u, true)) :
    Holds k u side v script (followed side v script held act) := by
  have wrote := (ready.step met).2
  have elsewhere (other : ∀ n, ¬act.Touches k (scriptOf k side v script) n) :
      Holds k u side v script held := by
    rw [Holds, wrote.frame other]
    exact holds
  have fine := ready.fine act List.mem_cons_self
  cases act with
  | node w =>
    refine elsewhere fun n touches => ?_
    have short := touches.1.length_le
    simp [scriptOf, scriptPath] at short
  | dep a b =>
    refine elsewhere fun n touches => ?_
    simp [Act.Touches, scriptOf, scriptPath] at touches
  | skip w =>
    refine elsewhere fun n touches => ?_
    simp [Act.Touches, scriptOf, scriptPath] at touches
  | test w answer => exact elsewhere fun n touches => touches
  | fopen side' v' script' =>
    by_cases own : side' = side ∧ v' = v ∧ script' = script
    · obtain ⟨rfl, rfl, rfl⟩ := own
      simp only [followed, and_self, if_true, Holds, Option.map_some, List.map_nil, List.append_nil]
      exact fopen_content ready.opened met
    · simp only [followed, if_neg own]
      refine elsewhere fun n touches => own ?_
      obtain ⟨_, ⟨above, _⟩ | ⟨small', same, _⟩⟩ := touches
      · have short := above.length_le
        simp [scriptOf, scriptPath] at short
      · obtain ⟨rfl, rfl, rfl⟩ := scriptOf_injective small small' same
        exact ⟨rfl, rfl, rfl⟩
  | print side' v' script' piece =>
    by_cases own : side' = side ∧ v' = v ∧ script' = script
    · obtain ⟨rfl, rfl, rfl⟩ := own
      simp only [followed, and_self, if_true]
      exact holds.print ready.opened met
    · simp only [followed, if_neg own]
      refine elsewhere fun n touches => own ?_
      obtain ⟨rfl, rfl, rfl⟩ := scriptOf_injective small fine.2.2 touches.2.1
      exact ⟨rfl, rfl, rfl⟩

/-- The contents of a script can be read off the requests. -/
theorem Performs.holds (performs : Performs d t acts u) (ready : Admissible d k t acts)
    (small : script.1 ≤ 99) (start : Holds k t side v script held) :
    Holds k u side v script (acts.foldl (followed side v script) held) := by
  induction performs generalizing held with
  | nil => exact start
  | cons met rest ih => exact ih (ready.step met).1 (start.step small ready met)

/-- The interfaces that have a skip file. -/
structure SkipFiles (k : Nat) (t : Base Piece) (skips : String → Prop) : Prop where
  dir : t.get [genName k, "skip"] = some .dir
  file : skips v → t.get [genName k, "skip", v] = some (.file [] false)
  missing : ¬skips v → t.get [genName k, "skip", v] = none

theorem SkipFiles.should_skip (files : SkipFiles k t skips) (opened : Opened d k t) (v : String) :
    daggerShouldSkip d t v = true ↔ skips v := by
  rw [daggerShouldSkip, opened.next, isFile_iff, t.resolve_of_not_link fun _ => opened.skip_plain]
  by_cases skip : skips v
  · simp [files.file skip, skip]
  · simp [files.missing skip, skip]

/-- Only the request to skip an interface makes its file. -/
theorem SkipFiles.step (files : SkipFiles k t skips) (ready : Admissible d k t (act :: acts))
    (met : act.run d t = (u, true)) : SkipFiles k u fun v => skips v ∨ act = .skip v := by
  have wrote := (ready.step met).2
  have dir := wrote.grows.dir files.dir
  have elsewhere (other : ∀ v n, ¬act.Touches k [genName k, "skip", v] n) (none : ∀ v, act ≠ .skip v) :
      SkipFiles k u fun v => skips v ∨ act = .skip v := by
    refine ⟨dir, fun {v} skip => ?_, fun {v} skip => ?_⟩
    · rw [wrote.frame (other v)]
      exact files.file (skip.resolve_right (none v))
    · rw [wrote.frame (other v)]
      exact files.missing fun before => skip (.inl before)
  cases act with
  | node w => exact elsewhere (fun v n touches => by simp [Act.Touches] at touches) (by simp)
  | dep a b => exact elsewhere (fun v n touches => by simp [Act.Touches] at touches) (by simp)
  | test w answer => exact elsewhere (fun v n touches => touches) (by simp)
  | fopen side w script =>
    refine elsewhere (fun v n touches => ?_) (by simp)
    obtain ⟨_, ⟨above, _⟩ | ⟨_, same, _⟩⟩ := touches
    · simp at above
    · simp [scriptPath] at same
  | print side w script piece =>
    exact elsewhere (fun v n touches => by simp [Act.Touches, scriptOf, scriptPath] at touches) (by simp)
  | skip w =>
    have plain : t.resolve [genName k, "skip", w] = [genName k, "skip", w] :=
      t.resolve_of_not_link fun _ => ready.opened.skip_plain
    have same (v : String) (different : v ≠ w) : u.get [genName k, "skip", v] = t.get [genName k, "skip", v] :=
      wrote.frame fun n touches => by simp [Act.Touches, different] at touches
    have made : u.get [genName k, "skip", w] = some (.file [] false) := by
      simp only [Act.run, daggerSkipIface, ready.opened.next, Prod.mk.injEq, and_true] at met
      rw [← met]
      by_cases skip : skips w
      · simp [touch, plain, files.file skip]
      · simp [touch, plain, files.missing skip, files.dir]
    refine ⟨dir, fun {v} skip => ?_, fun {v} skip => ?_⟩
    · by_cases own : v = w
      · rw [own, made]
      · rw [same v own]
        refine files.file (skip.resolve_right ?_)
        simp [Ne.symm own]
    · rw [not_or] at skip
      rw [same v (by rintro rfl; exact skip.2 rfl)]
      exact files.missing skip.1

theorem Performs.skip_files (performs : Performs d t acts u) (ready : Admissible d k t acts)
    (files : SkipFiles k t skips) : SkipFiles k u fun v => skips v ∨ .skip v ∈ acts := by
  induction performs generalizing skips with
  | nil => simpa using files
  | cons met rest ih =>
    have later := ih (ready.step met).1 (files.step ready met)
    simpa only [List.mem_cons, or_assoc, @eq_comm Act _ (.skip _)] using later

/-- The answer an interface gets depends on what was asked before. -/
theorem Performs.answered (performs : Performs d t (before ++ .test v answer :: after) u)
    (ready : Admissible d k t (before ++ .test v answer :: after)) (files : SkipFiles k t skips) :
    answer = true ↔ skips v ∨ .skip v ∈ before := by
  obtain ⟨w, first, rest⟩ := performs_append.mp performs
  obtain ⟨early, now⟩ := ready.append first
  cases rest with
  | cons met rest =>
    simp only [Act.run, Prod.mk.injEq, beq_iff_eq] at met
    rw [← met.2]
    exact (first.skip_files early files).should_skip now.opened v

end Netdag
