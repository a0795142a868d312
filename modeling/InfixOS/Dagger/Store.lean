import InfixOS.Dagger.Lifecycle

/-! The invariant of a base directory. It is stated for a number of successful
evolves, which fixes the name of the current generation and of the next one. -/
namespace Dagger
open Posix Posix.FileTree

variable {σ : Type}

/-- The links a generation may hold: the order of an action and the dependencies of a
node. -/
def Linkable (r target : Path) : Prop :=
  (∃ action, r = ["action", action, "order"]) ∨
    ∃ depender dependee, r = ["dag", depender, dependee] ∧ target = ["..", dependee] ∧ dependee ≠ ".."

/-- The link that gives the exit action of a generation its order. -/
def exitOrder (gen : Int) : Path := [genName gen, "action", "exit", "order"]

def toTopDown : Path := ["..", "..", "top-down-order"]

/-- The base directory after `k` successful evolves, in whatever state the
transaction that may be under way is. -/
structure Store (k : Nat) (t : Base σ) : Prop where
  proper : t.Proper
  nodes : (t.get (genName m :: "dag" :: r)).isSome → ∀ c ∈ r, Literal c ∧ c ≠ ""
  top : t.get [s] ≠ some (.link target)
  links : t.get (genName m :: r) = some (.link target) → Linkable r target
  first : k = 0 → t.get ["current"] = none
  current : 0 < k → ∃ x, t.get ["current"] = some (.file [.num (k - 1)] x)
  lock : t.get ["next"] = none ∨ ∃ data x, t.get ["next"] = some (.file data x)
  later : (k : Int) < m → t.get (genName m :: r) = none
  fresh : t.get ["next"] = none → t.get (genName k :: r) = none
  bottomUp : 0 < k → ∃ data x, t.get [genName (k - 1), "bottom-up-order"] = some (.file data x)
  topDown : 0 < k → ∃ data x, t.get [genName (k - 1), "top-down-order"] = some (.file data x)
  slot : t.get (exitOrder (k - 1)) = none ∨ t.get (exitOrder (k - 1)) = some (.link toTopDown)

theorem Store.empty : Store 0 (.empty : Base σ) where
  proper := by simp [Proper]
  nodes := by simp
  top := by simp
  links := by simp
  first := by simp
  current := by simp
  lock := by simp
  later := by simp
  fresh := by simp
  bottomUp := by simp
  topDown := by simp
  slot := by simp

/-- A write that the invariant survives. -/
structure Harmless (k : Nat) (t : Base σ) (q : Path) (n : Node (Item σ)) : Prop where
  nodes : q = genName m :: "dag" :: r → ∀ c ∈ r, Literal c ∧ c ≠ ""
  current : q ≠ ["current"]
  lock : q = ["next"] → ∃ data x, n = .file data x
  top : n = .link target → q ≠ [s]
  links : n = .link target → q = genName m :: r → Linkable r target
  bound : q = genName m :: r → m ≤ k
  fresh : t.get ["next"] = none → q ≠ genName k :: r
  slot : t.get (exitOrder (k - 1)) = none → q = exitOrder (k - 1) → n = .link toTopDown

namespace Store
variable {k : Nat} {t : Base σ}

theorem put (store : Store k t) (write : Write t q n) (harmless : Harmless k t q n) :
    Store k (t.put q n) where
  proper := write.proper store.proper
  nodes := by
    intro m r present
    rw [get_put] at present
    split at present
    · rename_i same
      exact harmless.nodes same.symm
    · exact store.nodes present
  top := by
    intro s target
    rw [get_put]
    split
    · rename_i same
      exact fun linked => harmless.top (Option.some.inj linked) same.symm
    · exact store.top
  links := by
    intro m r target linked
    rw [get_put] at linked
    split at linked
    · rename_i same
      exact harmless.links (Option.some.inj linked) same.symm
    · exact store.links linked
  first := by
    intro zero
    rw [get_put_of_ne _ _ harmless.current.symm, store.first zero]
  current := by
    intro positive
    rw [get_put_of_ne _ _ harmless.current.symm]
    exact store.current positive
  lock := by
    rw [get_put]
    split
    · rename_i same
      obtain ⟨data, x, rfl⟩ := harmless.lock same.symm
      exact .inr ⟨data, x, rfl⟩
    · exact store.lock
  later := by
    intro m r past
    rw [get_put_of_ne _ _ fun same => absurd (harmless.bound same.symm) (by omega)]
    exact store.later past
  fresh := by
    intro r missing
    rw [get_put] at missing
    split at missing
    · contradiction
    · rw [get_put_of_ne _ _ (harmless.fresh missing).symm]
      exact store.fresh missing
  bottomUp := by
    intro positive
    obtain ⟨data, x, found⟩ := store.bottomUp positive
    exact write.grows.file found
  topDown := by
    intro positive
    obtain ⟨data, x, found⟩ := store.topDown positive
    exact write.grows.file found
  slot := by
    rcases store.slot with missing | linked
    · rw [get_put]
      split
      · rename_i same
        exact .inr (congrArg some (harmless.slot missing same.symm))
      · exact .inl missing
    · exact .inr (write.grows.link linked)

/-- Under the lock only the kind of write matters. -/
theorem writes (store : Store k t) (locked : (t.get ["next"]).isSome)
    (writes : Writes allowed t u)
    (harmless : ∀ v q n, (v.get ["next"]).isSome → allowed q n → Harmless k v q n) :
    Store k u := by
  have both : Store k u ∧ (u.get ["next"]).isSome := by
    refine writes.keeps (P := fun u => Store k u ∧ (u.get ["next"]).isSome) ?_ ⟨store, locked⟩
    intro v q n before write fine
    exact ⟨before.1.put write (harmless v q n before.2 fine), write.grows.isSome before.2⟩
  exact both.1

theorem root (store : Store k t) (present : (t.get [c]).isSome) : t.get [] = some .dir :=
  store.proper [] c present

theorem generation (store : Store k t) (positive : 0 < k) : t.get [genName (k - 1)] = some .dir := by
  obtain ⟨data, x, found⟩ := store.bottomUp positive
  exact store.proper [genName (k - 1)] "bottom-up-order" (by simp [found])

/-- Scripts are never links. -/
theorem script_plain (store : Store k t) :
    t.get (scriptPath gen action node prio script) ≠ some (.link target) := by
  intro linked
  rcases store.links linked with ⟨_, same⟩ | ⟨_, _, same⟩
  · simp at same
  · simp at same

/-- The order file of the exit action is no directory, whether or not the link is there. -/
theorem slot_not_dir (store : Store k t) (positive : 0 < k) :
    t.isDir (exitOrder (k - 1)) = false := by
  rcases store.slot with missing | linked
  · simp [isDir, t.resolve_of_get (.inr (.inl missing)), missing]
  · obtain ⟨data, x, found⟩ := store.topDown positive
    have reached : t.resolve (exitOrder (k - 1)) = [genName (k - 1), "top-down-order"] := by
      rw [resolve, follow, linked]
      simp only [exitOrder, toTopDown, walk]
      apply t.follow_of_not_link
      simp [found]
    simp [isDir, reached, found]

end Store

/-- The generation of an open transaction is laid out and only ever added to. -/
structure Laid (k : Nat) (t : Base σ) : Prop where
  order : t.get [genName k, "action", "init", "order"] = some (.link ["..", "..", "bottom-up-order"])
  bottomUp : t.get [genName k, "bottom-up-order"] = none
  topDown : t.get [genName k, "top-down-order"] = none
  dag : t.get [genName k, "dag"] = none ∨ t.get [genName k, "dag"] = some .dir
  named : Named t k "init"
  slot : t.get (exitOrder k) = none
  previous : 0 < k → t.get (exitOrder (k - 1)) = some (.link toTopDown)
  skips : t.get [genName k, "skip"] = some .dir

/-- A transaction is open and has not been announced to the tool. -/
structure Prepared (k : Nat) (t : Base σ) : Prop extends Laid k t where
  next : ∃ x, t.get ["next"] = some (.file [] x)

/-- The lock file is not part of it. -/
theorem Laid.congr {k : Nat} {t u : Base σ} (laid : Laid k t)
    (same : ∀ q, q ≠ ["next"] → u.get q = t.get q) : Laid k u where
  order := by rw [same _ (by simp), laid.order]
  bottomUp := by rw [same _ (by simp), laid.bottomUp]
  topDown := by rw [same _ (by simp), laid.topDown]
  dag := by rw [same _ (by simp)]; exact laid.dag
  named := by
    intro q executable below
    refine laid.named q ?_ below
    rwa [isExecutable, same q (by rintro rfl; simp at below)] at executable
  slot := by rw [same _ (by simp [exitOrder]), laid.slot]
  previous := fun positive => by rw [same _ (by simp [exitOrder]), laid.previous positive]
  skips := by rw [same _ (by simp), laid.skips]

/-- Everything an operation of the open transaction may write. -/
inductive OpWrite (k : Nat) : Path → Node (Item σ) → Prop
  | node (v : Name) (above : q <+: [genName k, "dag", v.text]) : OpWrite k q .dir
  | initDir (v : Name) (above : q <+: [genName k, "action", "init", v.text]) : OpWrite k q .dir
  | exitDir (v : Name) (positive : 0 < k) (above : q <+: [genName (k - 1), "action", "exit", v.text]) :
      OpWrite k q .dir
  | dep (v c : Name) : OpWrite k [genName k, "dag", v.text, c.text] (.link ["..", c.text])
  | initScript (v : Name) (s : ScriptName) (small : prio ≤ 99) (data : List (Item σ)) (x : Bool) :
      OpWrite k (scriptPath k "init" v.text prio s.text) (.file data x)
  | exitScript (v : Name) (s : ScriptName) (positive : 0 < k) (small : prio ≤ 99) (data : List (Item σ)) (x : Bool) :
      OpWrite k (scriptPath (k - 1) "exit" v.text prio s.text) (.file data x)
  | skip (v : Name) : OpWrite k [genName k, "skip", v.text] (.file [] false)

theorem Name.word (name : Name) : Literal name.text ∧ name.text ≠ "" :=
  ⟨name.plain.literal, name.plain.ne_empty⟩

theorem Name.ne_parent (name : Name) : name.text ≠ ".." := fun same => name.plain.2.2 (by simp [same])

/-- A write into one of the two generations of an open transaction. -/
theorem Harmless.below {k : Nat} {t : Base σ}
    (nodes : ∀ (m : Int) r, q = genName m :: "dag" :: r → ∀ c ∈ r, Literal c ∧ c ≠ "")
    (inside : q = [] ∨ ∃ (m : Int) (r : Path), m ≤ k ∧ q = genName m :: r)
    (links : ∀ target (m : Int) r, n = .link target → q = genName m :: r → Linkable r target)
    (locked : (t.get ["next"]).isSome)
    (slot : t.get (exitOrder (k - 1)) = none → q = exitOrder (k - 1) → n = .link toTopDown) :
    Harmless k t q n where
  nodes := nodes _ _
  current := by
    rintro rfl
    rcases inside with empty | ⟨m, r, _, same⟩
    · simp at empty
    · exact genName_ne_current m (List.cons.inj same).1.symm
  lock := by
    rintro rfl
    rcases inside with empty | ⟨m, r, _, same⟩
    · simp at empty
    · exact absurd (List.cons.inj same).1.symm (genName_ne_next m)
  top := by
    rintro target s linked rfl
    rcases inside with empty | ⟨m, r, _, same⟩
    · simp at empty
    · have linkable := links target m r linked same
      rw [← (List.cons.inj same).2] at linkable
      rcases linkable with ⟨_, bad⟩ | ⟨_, _, bad⟩
      · simp at bad
      · simp at bad
  links := fun linked same => links _ _ _ linked same
  bound := by
    rintro m r rfl
    rcases inside with empty | ⟨m', r', small, same⟩
    · simp at empty
    · rw [genName_inj.mp (List.cons.inj same).1]
      exact small
  fresh := by
    intro r missing
    simp [missing] at locked
  slot := slot

theorem prefix_inside (above : q <+: genName m :: p) : q = [] ∨ ∃ r, q = genName m :: r := by
  cases q with
  | nil => exact .inl rfl
  | cons c r =>
    rw [List.cons_prefix_cons] at above
    exact .inr ⟨r, by rw [above.1]⟩

namespace OpWrite
variable {k : Nat} {t : Base σ}

theorem nodes (write : OpWrite k q (n : Node (Item σ))) (dag : q = genName m :: "dag" :: r) :
    ∀ c ∈ r, Literal c ∧ c ≠ "" := by
  cases write with
  | node v above =>
    simp only [dag, List.cons_prefix_cons, true_and] at above
    intro c member
    rw [List.mem_singleton.mp (above.2.subset member)]
    exact v.word
  | initDir v above => simp [dag] at above
  | exitDir v _ above => simp [dag] at above
  | dep v c =>
    simp only [List.cons.injEq, true_and] at dag
    simp only [← dag.2, List.forall_mem_cons]
    exact ⟨v.word, c.word, by simp⟩
  | initScript v s => simp [scriptPath] at dag
  | exitScript v s => simp [scriptPath] at dag
  | skip v => simp at dag

theorem inside (write : OpWrite k q (n : Node (Item σ))) :
    q = [] ∨ ∃ (m : Int) (r : Path), m ≤ k ∧ q = genName m :: r := by
  have above (p : Path) (m : Int) (small : m ≤ k) (short : q <+: genName m :: p) :
      q = [] ∨ ∃ (m : Int) (r : Path), m ≤ k ∧ q = genName m :: r := by
    rcases prefix_inside short with empty | ⟨r, same⟩
    · exact .inl empty
    · exact .inr ⟨m, r, small, same⟩
  cases write with
  | node v short => exact above _ k (by omega) short
  | initDir v short => exact above _ k (by omega) short
  | exitDir v _ short => exact above _ (k - 1) (by omega) short
  | dep v c => exact .inr ⟨k, _, by omega, rfl⟩
  | initScript v s => exact .inr ⟨k, _, by omega, rfl⟩
  | exitScript v s => exact .inr ⟨k - 1, _, by omega, rfl⟩
  | skip v => exact .inr ⟨k, _, by omega, rfl⟩

theorem harmless (write : OpWrite k q n) (locked : (t.get ["next"]).isSome)
    (previous : 0 < k → t.get (exitOrder (k - 1)) = some (.link toTopDown)) : Harmless k t q n := by
  refine .below (fun m r => write.nodes) write.inside ?_ locked ?_
  · rintro target m r rfl same
    cases write with
    | dep v c => exact .inr ⟨v.text, c.text, (List.cons.inj same).2.symm, rfl, c.ne_parent⟩
  · intro missing same
    by_cases positive : 0 < k
    · simp [previous positive] at missing
    · exfalso
      cases write with
      | node v above => simp [same, exitOrder] at above
      | initDir v above => simp [same, exitOrder] at above
      | exitDir v positive' => exact positive positive'
      | dep v c => simp [exitOrder] at same
      | initScript v s => simp [exitOrder, scriptPath] at same
      | exitScript v s positive' => exact positive positive'
      | skip v => simp [exitOrder] at same

/-- No operation writes to the order files of its generation. -/
theorem order_file (write : OpWrite k q (n : Node (Item σ)))
    (file : name = "bottom-up-order" ∨ name = "top-down-order") : [genName k, name] ≠ q := by
  intro same
  have other : name ≠ "dag" ∧ name ≠ "action" := by rcases file with rfl | rfl <;> decide
  cases write with
  | node v above => simp [← same, other] at above
  | initDir v above => simp [← same, other] at above
  | exitDir v _ above => simp [← same, other] at above
  | dep v c => simp at same
  | initScript v s => simp [scriptPath] at same
  | exitScript v s => simp [scriptPath] at same
  | skip v => simp at same

/-- No operation gives its own generation an order for the exit action. -/
theorem exit_order (write : OpWrite k q (n : Node (Item σ))) : exitOrder k ≠ q := by
  intro same
  cases write with
  | node v above => simp [← same, exitOrder] at above
  | initDir v above => simp [← same, exitOrder] at above
  | exitDir v _ above =>
    simp only [← same, exitOrder, List.cons_prefix_cons, genName_inj] at above
    omega
  | dep v c => simp [exitOrder] at same
  | initScript v s => simp [scriptPath, exitOrder] at same
  | exitScript v s => simp [scriptPath, exitOrder] at same
  | skip v => simp [exitOrder] at same

theorem dag_dir (write : OpWrite k q (n : Node (Item σ))) (same : [genName k, "dag"] = q) :
    n = .dir := by
  cases write with
  | node v above => rfl
  | initDir v above => rfl
  | exitDir v _ above => rfl
  | dep v c => simp at same
  | initScript v s => simp [scriptPath] at same
  | exitScript v s => simp [scriptPath] at same
  | skip v => simp at same

theorem script_named (write : OpWrite k q (.file data true : Node (Item σ)))
    (below : [genName k, "action", "init"] <+: q) :
    ∃ node prio script, prio ≤ 99 ∧ q = scriptPath k "init" node prio script := by
  cases write with
  | initScript v s small => exact ⟨v.text, _, s.text, small, rfl⟩
  | exitScript v s positive small => simp [scriptPath] at below

/-- What is said about the open transaction stays true. -/
theorem prepared (write : OpWrite k q n) (wrote : Write t q n) (prepared : Prepared k t) :
    Prepared k (t.put q n) where
  next := by
    obtain ⟨x, found⟩ := prepared.next
    refine ⟨x, ?_⟩
    rw [get_put_of_ne, found]
    rintro rfl
    rcases write.inside with empty | ⟨m, r, _, same⟩
    · simp at empty
    · exact genName_ne_next m (List.cons.inj same).1.symm
  order := wrote.grows.link prepared.order
  bottomUp := by rw [get_put_of_ne _ _ (write.order_file (.inl rfl)), prepared.bottomUp]
  topDown := by rw [get_put_of_ne _ _ (write.order_file (.inr rfl)), prepared.topDown]
  dag := by
    rcases prepared.dag with missing | found
    · rw [get_put]
      split
      · rename_i same
        exact .inr (congrArg some (write.dag_dir same))
      · exact .inl missing
    · exact .inr (wrote.grows.dir found)
  named := by
    intro p executable below
    obtain ⟨data, found⟩ := isExecutable_iff.mp executable
    rw [get_put] at found
    split at found
    · rename_i same
      subst same
      cases found
      exact write.script_named below
    · exact prepared.named p (isExecutable_iff.mpr ⟨data, found⟩) below
  slot := by rw [get_put_of_ne _ _ write.exit_order, prepared.slot]
  previous := fun positive => wrote.grows.link (prepared.previous positive)
  skips := wrote.grows.dir prepared.skips

end OpWrite

/-- Opening a script makes its directory and the file itself. -/
def FopenWrite (gen : Int) (action node : String) (prio : Nat) (script : String) (q : Path)
    (n : Node (Item σ)) : Prop :=
  q <+: [genName gen, "action", action, node] ∧ n = .dir ∨
  prio ≤ 99 ∧ q = scriptPath gen action node prio script ∧ ∃ data x, n = .file data x

theorem daggerFopen_writes {t : Base σ} (store : Store k t) (gen : Int) (action node : String)
    (prio : Nat) (script : String) :
    Writes (FopenWrite gen action node prio script) t (daggerFopen t gen action node prio script).1 := by
  unfold daggerFopen
  split
  · exact .refl
  · rename_i large
    have small : prio ≤ 99 := by omega
    have made := t.mkdirP_writes [genName gen, "action", action, node]
    have first : Writes (FopenWrite gen action node prio script) t
        (t.mkdirP [genName gen, "action", action, node]).1 := made.mono fun q n fine => .inl fine
    have kept : (t.mkdirP [genName gen, "action", action, node]).1.get
        (scriptPath gen action node prio script) = t.get (scriptPath gen action node prio script) := by
      refine made.frame fun n fine => ?_
      have short := fine.1.length_le
      simp [scriptPath] at short
    generalize t.mkdirP [genName gen, "action", action, node] = r at first kept ⊢
    obtain ⟨u, ok⟩ := r
    cases ok with
    | false => exact first
    | true =>
      simp only
      have opened := u.openWrite_writes (scriptPath gen action node prio script)
      rw [u.resolve_of_not_link fun target => kept ▸ store.script_plain] at opened
      have second : Writes (FopenWrite gen action node prio script) u
          (u.openWrite (scriptPath gen action node prio script)).1 :=
        opened.mono fun q n fine => .inr ⟨small, fine.1, [], fine.2⟩
      generalize u.openWrite (scriptPath gen action node prio script) = r at second ⊢
      obtain ⟨v, ok⟩ := r
      cases ok with
      | false => exact first.trans second
      | true =>
        have third : Writes (FopenWrite gen action node prio script) v
            (v.append (scriptPath gen action node prio script) (interpreter script)) :=
          (v.append_writes _ _).mono fun q n fine => .inr ⟨small, fine⟩
        refine ((first.trans second).trans third).trans ((chmodX_writes _ _).mono fun q n fine => ?_)
        exact .inr ⟨small, fine.1, fine.2.imp fun data same => ⟨true, same⟩⟩

/-- Everything one operation does. -/
theorem Op.apply_writes {k : Nat} {d : Handle} {t : Base σ} (store : Store k t)
    (next : d.next = k) (current : d.current = k - 1) (op : Op σ) : Writes (OpWrite k) t (op.apply d t) := by
  cases op with
  | addNode v =>
    simp only [Op.apply, daggerAddNode, next]
    refine (t.mkdirP_writes _).mono ?_
    rintro q n ⟨above, rfl⟩
    exact .node v above
  | addDep v c =>
    simp only [Op.apply, daggerAddDep, next]
    split
    · rename_i found
      refine (t.lnS_writes _ _).mono ?_
      rintro q n ⟨same, rfl⟩
      rw [t.destination_of_dir found] at same
      subst same
      exact .dep v c
    · exact .refl
  | fopen side v prio s =>
    cases side with
    | init =>
      simp only [Op.apply, daggerFopenNext, next]
      refine (daggerFopen_writes store _ _ _ _ _).mono ?_
      rintro q n (⟨above, rfl⟩ | ⟨small, rfl, data, x, rfl⟩)
      · exact .initDir v above
      · exact .initScript v s small data x
    | exit =>
      simp only [Op.apply, daggerFopenCurrent, current]
      split
      · exact .refl
      · rename_i nonneg
        refine (daggerFopen_writes store _ _ _ _ _).mono ?_
        rintro q n (⟨above, rfl⟩ | ⟨small, rfl, data, x, rfl⟩)
        · exact .exitDir v (by omega) above
        · exact .exitScript v s (by omega) small data x
  | print side v prio s data =>
    cases side with
    | init =>
      simp only [Op.apply, next]
      split
      · rename_i small
        refine (t.append_writes _ _).mono ?_
        rintro q n ⟨rfl, data, x, rfl⟩
        exact .initScript v s small data x
      · exact .refl
    | exit =>
      simp only [Op.apply, current]
      split
      · rename_i there
        refine (t.append_writes _ _).mono ?_
        rintro q n ⟨rfl, data, x, rfl⟩
        exact .exitScript v s (by omega) there.1 data x
      · exact .refl
  | skipIface v =>
    simp only [Op.apply, daggerSkipIface, next]
    refine (t.touch_writes _).mono ?_
    rintro q n ⟨same, rfl⟩
    rw [t.resolve_of_not_link] at same
    · subst same
      exact .skip v
    · intro target linked
      rcases store.links linked with ⟨_, bad⟩ | ⟨_, _, bad⟩
      · simp at bad
      · simp at bad

/-- The invariant survives whatever an open transaction may write. -/
theorem OpWrite.keeps {k : Nat} {t u : Base σ} (wrote : Writes (OpWrite k) t u) (store : Store k t)
    (prepared : Prepared k t) : Store k u ∧ Prepared k u := by
  refine wrote.keeps (P := fun u => Store k u ∧ Prepared k u) ?_ ⟨store, prepared⟩
  intro u q n before write fine
  obtain ⟨x, locked⟩ := before.2.next
  exact ⟨before.1.put write (fine.harmless (by simp [locked]) before.2.previous),
    fine.prepared write before.2⟩

end Dagger
