import InfixOS.Json.Merge
import InfixOS.Posix.Words

/-! The script board/common/rootfs/lib/infix/cfg-bootstrap, which merges the JSON
fragments of two directories into the factory configuration. -/
namespace Boot
open Json Posix

structure Fragment (α : Type) where
  path : String
  fields : String → Json.Tree α

/-- The fragments of the two directories, under paths that the shell passes on as
words. -/
structure Fragments (α : Type) where
  factory : List (Fragment α)
  gencfg : List (Fragment α)
  /-- The script has just written one of them itself. -/
  generated : factory ≠ []
  distinct : ((factory ++ gencfg).map Fragment.path).Nodup
  words : ∀ f ∈ factory ++ gencfg, Literal f.path ∧ f.path ≠ ""

variable {α : Type}

def printed : List (Fragment α) → String
  | [] => ""
  | f :: rest => f.path ++ "\n" ++ printed rest

/-- jq reads its file arguments one after the other, and fails if one is missing. -/
def slurp (disk : List (Fragment α)) (args : List String) : Option (List (Json.Tree α)) :=
  args.mapM fun path => (disk.find? fun f => f.path = path).map fun f => .obj f.fields

/-- The factory configuration, if find enumerates the files of the two directories
in these orders. -/
def autoFactoryConfig (sh : Shell) (factory gencfg : List (Fragment α)) : Option (Json.Tree α) :=
  (slurp (factory ++ gencfg) (sh.expand (printed factory) ++ sh.expand (printed gencfg))).map mergeAll

def byName (files : List (Fragment α)) : List (Fragment α) := files.insertionSort fun a b => a.path ≤ b.path

def objects (files : List (Fragment α)) : List (Json.Tree α) := files.map fun f => .obj f.fields

/-- The fragments of each directory are merged by name, whatever the order find
enumerates them in. -/
def MergedByName (sh : Shell) (dirs : Fragments α) : Prop :=
  ∀ factory gencfg, factory.Perm dirs.factory → gencfg.Perm dirs.gencfg →
    autoFactoryConfig sh factory gencfg = some (mergeAll (objects (byName dirs.factory ++ byName dirs.gencfg)))

/-- What two fragments say about a path is not the same. -/
def Contradict (path : List String) (files : List (Fragment α)) : Prop :=
  ∃ a ∈ files, ∃ b ∈ files, ∃ x y, (Json.Tree.obj a.fields).tells path = some x ∧ (Json.Tree.obj b.fields).tells path = some y ∧ x ≠ y

section Words
variable {files : List (Fragment α)}

theorem expand_printed (sh : Shell) (words : ∀ f ∈ files, Literal f.path ∧ f.path ≠ "") :
    sh.expand (printed files) = files.map Fragment.path := by
  induction files with
  | nil => simp [printed, Shell.expand, Posix.fields]
  | cons f rest ih =>
    obtain ⟨⟨literal, nonempty⟩, others⟩ := List.forall_mem_cons.mp words
    have later := ih others
    have first : fields (printed (f :: rest)) = f.path :: fields (printed rest) :=
      fields_cons (by simp [printed]) (fun c member => (literal c member).1) nonempty (by decide : isBlank '\n' = true)
    rw [Shell.expand] at later ⊢
    rw [first, List.flatMap_cons, later,
      sh.glob_plain f.path fun c member => (literal c member).2]
    rfl

end Words

theorem slurp_paths (disk files : List (Fragment α)) (distinct : (disk.map Fragment.path).Nodup) (inside : files ⊆ disk) :
    slurp disk (files.map Fragment.path) = some (objects files) := by
  induction files with
  | nil => rfl
  | cons f rest ih =>
    have found : (disk.find? fun g => g.path = f.path) = some f := by
      cases first : disk.find? fun g => g.path = f.path with
      | none => exact absurd (List.find?_eq_none.mp first f (inside List.mem_cons_self)) (by simp)
      | some g =>
        have same : g.path = f.path := by simpa using List.find?_some first
        rw [List.inj_on_of_nodup_map distinct (List.mem_of_find?_eq_some first) (inside List.mem_cons_self) same]
    have later := ih fun g member => inside (List.mem_cons_of_mem _ member)
    rw [slurp] at later ⊢
    rw [List.map_cons, List.mapM_cons, later]
    simp [found, objects]

theorem autoFactoryConfig_eq (sh : Shell) (dirs : Fragments α) (perm : factory.Perm dirs.factory)
    (perm' : gencfg.Perm dirs.gencfg) :
    autoFactoryConfig sh factory gencfg = some (mergeAll (objects (factory ++ gencfg))) := by
  have whole : (factory ++ gencfg).Perm (dirs.factory ++ dirs.gencfg) := perm.append perm'
  have words : ∀ f ∈ factory ++ gencfg, Literal f.path ∧ f.path ≠ "" := fun f member =>
    dirs.words f (whole.mem_iff.mp member)
  have distinct : ((factory ++ gencfg).map Fragment.path).Nodup :=
    (whole.map Fragment.path).nodup_iff.mpr dirs.distinct
  rw [autoFactoryConfig, expand_printed sh fun f member => words f (List.mem_append_left _ member),
    expand_printed sh fun f member => words f (List.mem_append_right _ member), ← List.map_append,
    slurp_paths _ _ distinct (List.Subset.refl _)]
  rfl

section Order
variable {a : Fragment α} {files files' : List (Fragment α)} {path : List String}

theorem merged_last (tells : (Json.Tree.obj a.fields).tells path = some x) (before : List (Fragment α)) :
    (mergeAll (objects (before ++ [a]))).content path = x := by
  rw [objects, List.map_append, content_mergeAll, sayings, List.filterMap_append]
  simp [tells]

theorem exists_last (member : a ∈ files) : ∃ before, (before ++ [a]).Perm files := by
  obtain ⟨l, r, rfl⟩ := List.append_of_mem member
  exact ⟨l ++ r, by rw [List.append_assoc]; exact (List.perm_append_comm).append_left l⟩

theorem Contradict.perm (perm : files.Perm files') (differ : Contradict path files) : Contradict path files' := by
  obtain ⟨a, member, b, member', rest⟩ := differ
  exact ⟨a, perm.subset member, b, perm.subset member', rest⟩

theorem byName_perm (files : List (Fragment α)) : (byName files).Perm files := List.perm_insertionSort _ files

theorem merged_silent (silent : ∀ f ∈ files', (Json.Tree.obj f.fields).tells path = none) (files : List (Fragment α)) :
    (mergeAll (objects (files ++ files'))).content path = (mergeAll (objects files)).content path := by
  have none : sayings (objects files') path = [] := by
    rw [sayings, List.filterMap_eq_nil_iff]
    intro t member
    obtain ⟨f, listed, rfl⟩ := List.mem_map.mp member
    exact silent f listed
  rw [content_mergeAll, content_mergeAll, objects, List.map_append, sayings, List.filterMap_append]
  have rest : (files'.map fun f => Json.Tree.obj f.fields).filterMap (fun part => part.tells path) = [] := none
  rw [rest, List.append_nil]
  rfl

/-- Of fragments that agree any may come last. -/
theorem merged_agree (agree : ¬Contradict path files) (member : a ∈ files)
    (tells : (Json.Tree.obj a.fields).tells path = some x) (before : List (Fragment α)) :
    (mergeAll (objects (before ++ files))).content path = x := by
  have all : ∀ y ∈ sayings (objects files) path, y = x := by
    intro y said
    obtain ⟨t, listed, tells'⟩ := List.mem_filterMap.mp said
    obtain ⟨f, inside, rfl⟩ := List.mem_map.mp listed
    by_contra other
    exact agree ⟨f, inside, a, member, y, x, tells', tells, other⟩
  have some : x ∈ sayings (objects files) path :=
    List.mem_filterMap.mpr ⟨_, List.mem_map_of_mem member, tells⟩
  rw [content_mergeAll, objects, List.map_append, sayings, List.filterMap_append]
  have last : ((files.map fun f => Json.Tree.obj f.fields).filterMap fun part => part.tells path).getLast? = .some x := by
    cases found : (sayings (objects files) path).getLast? with
    | none => simp [List.getLast?_eq_none_iff.mp found] at some
    | some y => rw [all y (List.mem_of_getLast? found)] at found; exact found
  rw [List.getLast?_append, last]
  rfl

/-- Fragments that agree about a path, or do not matter for it, can be merged in any
order. -/
theorem merged_perm (perm : files'.Perm files) (agree : ¬Contradict path files)
    (same : (mergeAll (objects before)).content path = (mergeAll (objects before')).content path) :
    (mergeAll (objects (before ++ files'))).content path = (mergeAll (objects (before' ++ files))).content path := by
  by_cases told : ∃ a ∈ files, (Json.Tree.obj a.fields).tells path ≠ none
  · obtain ⟨a, member, tells⟩ := told
    obtain ⟨x, tells⟩ := Option.ne_none_iff_exists'.mp tells
    rw [merged_agree (fun differ => agree (differ.perm perm)) (perm.mem_iff.mpr member) tells,
      merged_agree agree member tells]
  · have silent : ∀ a ∈ files, (Json.Tree.obj a.fields).tells path = none := fun a member => by
      by_contra tells
      exact told ⟨a, member, tells⟩
    rw [merged_silent fun a member => silent a (perm.subset member), merged_silent silent, same]

end Order

/-- The order of the files does not matter exactly if no two fragments of the second
directory contradict each other anywhere, nor two of the first where the second one
says nothing. -/
theorem mergedByName_iff (sh : Shell) (dirs : Fragments α) :
    MergedByName sh dirs ↔
      ∀ path, ¬Contradict path dirs.gencfg ∧
        ((∀ f ∈ dirs.gencfg, (Json.Tree.obj f.fields).tells path = none) → ¬Contradict path dirs.factory) := by
  constructor
  · intro merged path
    have reads : ∀ {factory gencfg}, factory.Perm dirs.factory → gencfg.Perm dirs.gencfg →
        (mergeAll (objects (factory ++ gencfg))).content path =
          (mergeAll (objects (byName dirs.factory ++ byName dirs.gencfg))).content path := by
      intro factory gencfg perm perm'
      have whole := merged factory gencfg perm perm'
      rw [autoFactoryConfig_eq sh dirs perm perm'] at whole
      rw [Option.some.inj whole]
    refine ⟨fun ⟨a, first, b, second, x, y, tells, tells', differ⟩ => ?_,
      fun silent ⟨a, first, b, second, x, y, tells, tells', differ⟩ => ?_⟩
    · obtain ⟨before, perm⟩ := exists_last first
      obtain ⟨before', perm'⟩ := exists_last second
      have one := reads (List.Perm.refl _) perm
      have other := reads (List.Perm.refl _) perm'
      rw [← List.append_assoc, merged_last tells] at one
      rw [← List.append_assoc, merged_last tells'] at other
      exact differ (one.trans other.symm)
    · obtain ⟨before, perm⟩ := exists_last first
      obtain ⟨before', perm'⟩ := exists_last second
      have one := reads perm (List.Perm.refl _)
      have other := reads perm' (List.Perm.refl _)
      rw [merged_silent silent, merged_last tells] at one
      rw [merged_silent silent, merged_last tells'] at other
      exact differ (one.trans other.symm)
  · intro agree factory gencfg perm perm'
    rw [autoFactoryConfig_eq sh dirs perm perm']
    refine congrArg some (Json.Tree.ext_content fun path => ?_)
    have sorted : gencfg.Perm (byName dirs.gencfg) := perm'.trans (byName_perm _).symm
    by_cases silent : ∀ f ∈ dirs.gencfg, (Json.Tree.obj f.fields).tells path = none
    · have agrees := (agree path).2 silent
      refine merged_perm sorted (fun differ => (agree path).1 (differ.perm (byName_perm _))) ?_
      rw [← List.nil_append factory, ← List.nil_append (byName dirs.factory)]
      exact merged_perm (perm.trans (byName_perm _).symm) (fun differ => agrees (differ.perm (byName_perm _))) rfl
    · push Not at silent
      obtain ⟨f, member, tells⟩ := silent
      obtain ⟨x, tells⟩ := Option.ne_none_iff_exists'.mp tells
      rw [merged_agree (fun differ => (agree path).1 (differ.perm perm')) (perm'.mem_iff.mpr member) tells,
        merged_agree (fun differ => (agree path).1 (differ.perm (byName_perm _))) ((byName_perm _).mem_iff.mpr member) tells]

def hostname (path name : String) : Fragment String where
  path := path
  fields key := if key = "ietf-system:system" then
      .obj fun leaf => if leaf = "hostname" then .atom name else .absent
    else .absent

/-- The fragment that is shipped, and the one from gen-hostname. -/
def shipped : Fragments String where
  factory := [hostname "/etc/auto-factory.d/10-system.json" "infix",
    hostname "/etc/auto-factory.d/20-auto-hostname.json" "infix-00-00-00"]
  gencfg := []
  generated := List.cons_ne_nil _ _
  distinct := by decide
  words := by decide +kernel

/-- The generated hostname is lost if find enumerates the shipped fragment last. -/
theorem generated_hostname_lost :
    (autoFactoryConfig Shell.bare shipped.factory.reverse []).bind (·.content ["ietf-system:system", "hostname"]) =
        some (.atom "infix") ∧
      ¬MergedByName Shell.bare shipped := by
  have lost : (autoFactoryConfig Shell.bare shipped.factory.reverse []).bind
      (·.content ["ietf-system:system", "hostname"]) = some (.atom "infix") := by decide +kernel
  refine ⟨lost, fun merged => ?_⟩
  have sorted : (mergeAll (objects (byName shipped.factory ++ byName shipped.gencfg))).content
      ["ietf-system:system", "hostname"] = some (.atom "infix-00-00-00") := by decide +kernel
  rw [merged _ [] (List.reverse_perm _) (List.Perm.refl _), Option.bind_some, sorted] at lost
  exact absurd lost (by decide)

end Boot
