import InfixOS.InfixDhcp.Client
import InfixOS.Yang.Diff
import Mathlib.Data.List.Nodup

/-! Whether the running DHCP clients follow the configuration. Only entries that are
in the diff are looked at, while the switch of the module is about all of them. -/
namespace InfixDhcp
open Core Lyx Posix Yang

theorem boolText_inj (same : boolText a = boolText b) : a = b := by
  cases a <;> cases b <;> simp_all [boolText]

theorem boolText_true (b : Bool) : (boolText b = "true") ↔ b = true := by
  cases b <;> simp [boolText]

@[simp] theorem node_name (c : ClientIf) : c.node.name = "client-if" := rfl

@[simp] theorem node_key (c : ClientIf) : valueOf c.node.children "if-name" = some c.ifName := by
  simp [ClientIf.node, Node.children, valueOf, Node.name, Node.value]

@[simp] theorem key_leaf (name : String) (flag : Bool) (data : Meta) (more : List Node) :
    valueOf (.leaf "if-name" name flag data :: more) "if-name" = some name := by
  simp [valueOf, Node.name, Node.value]

theorem partner_client (cfg : Config) (c : ClientIf) :
    partner cfg.nodes c.node = (cfg.clients.find? fun d => d.ifName = c.ifName).map ClientIf.node := by
  rw [partner, Config.nodes, List.find?_cons_of_neg (by simp [Node.key, ClientIf.node]), List.find?_map]
  congr 2
  funext d
  simp [ClientIf.node, Node.key, valueOf, Node.name, Node.value]

theorem client_of_node {cfg : Config} (inside : n ∈ cfg.nodes) (named : n.name = "client-if") :
    ∃ c ∈ cfg.clients, c.node = n := by
  rcases List.mem_cons.mp inside with rfl | entry
  · simp [Node.name] at named
  · exact List.mem_map.mp entry

theorem diff_leaves (c d : ClientIf) (same : c.ifName = d.ifName) :
    diffSiblings c.node.children d.node.children = [] ↔ c = d := by
  obtain ⟨name, enabled, isDefault, clientId⟩ := c
  obtain ⟨name', enabled', isDefault', clientId'⟩ := d
  obtain rfl : name = name' := same
  have texts : boolText enabled = boolText enabled' ↔ enabled = enabled' := ⟨boolText_inj, congrArg boolText⟩
  cases clientId with
  | none =>
    cases clientId' with
    | none => simp [ClientIf.node, ClientIf.leaves, Node.children, diffSiblings, diffChildren, partner, Node.key,
        diffNode_leaf_eq_none, Node.value, Node.isDefault, texts]
    | some id' => simp [ClientIf.node, ClientIf.leaves, Node.children, diffSiblings, diffChildren, partner, Node.key]
  | some id =>
    cases clientId' with
    | none => simp [ClientIf.node, ClientIf.leaves, Node.children, diffSiblings, diffChildren, partner, Node.key]
    | some id' => simp [ClientIf.node, ClientIf.leaves, Node.children, diffSiblings, diffChildren, partner, Node.key,
        diffNode_leaf_eq_none, Node.value, Node.isDefault, texts, and_assoc]

/-- The entry of an interface in the diff, if it was there before and still is. -/
theorem diffNode_client (c d : ClientIf) :
    diffNode c.node d.node =
      match diffSiblings c.node.children d.node.children with
      | [] => none
      | changes => some (.inner "client-if" ["if-name"] ⟨some .none, none, none⟩
          (.leaf "if-name" c.ifName false .plain :: changes)) := by
  have keys : keyLeaves ["if-name"] c.node.children = [.leaf "if-name" c.ifName false .plain] := by
    cases id : c.clientId with
    | none => simp [keyLeaves, ClientIf.node, ClientIf.leaves, Node.children, Node.name, id]
    | some id => simp [keyLeaves, ClientIf.node, ClientIf.leaves, Node.children, Node.name, id]
  rw [show c.node = .inner "client-if" ["if-name"] .plain c.node.children from rfl, diffNode_inner,
    show (Node.inner "client-if" ["if-name"] Meta.plain c.node.children).children = c.node.children from rfl, keys]
  rfl

/-- The names that a diff is about. -/
def changed (old new : Config) : List String := (clientIfs (diffSiblings old.tree new.tree)).map ifName

section Entries
variable {old new : Config}

/-- What a node of the diff says of its interface. -/
inductive Entry (old new : Config) : Node → Prop
  | deleted (was : c ∈ old.clients) (gone : c.ifName ∉ new.clients.map ClientIf.ifName) :
      Entry old new (c.node.mark .delete)
  | kept (was : c ∈ old.clients) (is : d ∈ new.clients) (same : c.ifName = d.ifName) (apart : c ≠ d)
      (changes : List Node) : Entry old new (.inner "client-if" ["if-name"] ⟨some .none, none, none⟩
        (.leaf "if-name" c.ifName false .plain :: changes))
  | created (is : c ∈ new.clients) (fresh : c.ifName ∉ old.clients.map ClientIf.ifName) :
      Entry old new (c.node.mark .create)

theorem find_none (cfg : Config) (name : String) : (cfg.clients.find? fun c => c.ifName = name) = none ↔
    name ∉ cfg.clients.map ClientIf.ifName := by
  simp [List.find?_eq_none]

theorem diff_entry (member : n ∈ diffSiblings old.nodes new.nodes) (named : n.name = "client-if") :
    Entry old new n := by
  rcases (mem_diffSiblings _ _).mp member with ⟨o, inside, ⟨alone, rfl⟩ | ⟨m, found, differs⟩⟩ | ⟨m, inside, alone, rfl⟩
  · obtain ⟨c, was, rfl⟩ := client_of_node inside (by simpa using named)
    rw [partner_client, Option.map_eq_none_iff, find_none] at alone
    exact .deleted was alone
  · obtain ⟨c, was, rfl⟩ := client_of_node inside ((diffNode_name differs).symm.trans named)
    rw [partner_client] at found
    obtain ⟨d, first, rfl⟩ := Option.map_eq_some_iff.mp found
    have same : d.ifName = c.ifName := by simpa using List.find?_some first
    have apart : c ≠ d := by
      rintro rfl
      rw [diffNode_client, (diff_leaves c c rfl).mpr rfl] at differs
      simp at differs
    rw [diffNode_client] at differs
    split at differs
    · simp at differs
    · obtain rfl := Option.some.inj differs
      exact .kept was (List.mem_of_find?_eq_some first) same.symm apart _
  · obtain ⟨c, is, rfl⟩ := client_of_node inside (by simpa using named)
    rw [partner_client, Option.map_eq_none_iff, find_none] at alone
    exact .created is alone

theorem diff_tree (old new : Config) : diffSiblings old.tree new.tree =
    match diffSiblings old.nodes new.nodes with
    | [] => []
    | changes => [.inner "dhcp-client" [] ⟨some .none, none, none⟩ changes] := by
  have same : (Node.inner "dhcp-client" [] .plain new.nodes).key = (Node.inner "dhcp-client" [] .plain old.nodes).key := rfl
  rw [Config.tree, Config.tree, diffSiblings_single _ _ same, diffNode_inner]
  cases changes : diffSiblings old.nodes new.nodes with
  | nil => simp [Node.children, changes]
  | cons n more => simp [Node.children, changes, keyLeaves]

/-- The entries of the diff, one by one. -/
theorem mem_clientIfs (member : q ∈ clientIfs (diffSiblings old.tree new.tree)) :
    ∃ n rest, q = ⟨n :: rest, some .none⟩ ∧ Entry old new n := by
  rw [diff_tree] at member
  split at member
  · simp [clientIfs, Ptr.root, lydxGetDescendant, lydxGetSibling, lydChild, lyxListForEach, entriesFrom, Ptr.null] at member
  · obtain ⟨n, rest, same, inside, named⟩ := mem_lyxList "dhcp-client" "client-if" [] _ _ [] none member
    exact ⟨n, rest, same, diff_entry inside named⟩

theorem changed_of_mem (member : n ∈ diffSiblings old.nodes new.nodes) (named : n.name = "client-if")
    (key : valueOf n.children "if-name" = some x) : x ∈ changed old new := by
  rw [changed, diff_tree]
  split
  · rename_i none
    simp [none] at member
  · obtain ⟨rest, inside⟩ := lyxList_of_mem "dhcp-client" "client-if" [] ⟨some .none, none, none⟩ _ [] none member named
    refine List.mem_map.mpr ⟨_, inside, ?_⟩
    rw [ifName, lydxGetCattr_eq, key]
    rfl

/-- An entry that both configurations have is not in the diff. -/
theorem not_changed (was : c ∈ old.clients) (is : c ∈ new.clients) : c.ifName ∉ changed old new := by
  intro member
  obtain ⟨q, inside, name⟩ := List.mem_map.mp member
  obtain ⟨n, rest, rfl, entry⟩ := mem_clientIfs inside
  rw [ifName, lydxGetCattr_eq] at name
  cases entry with
  | deleted other gone =>
    rename_i d
    have same : d.ifName = c.ifName := by simpa using name
    exact gone (List.mem_map.mpr ⟨c, is, same.symm⟩)
  | kept other also same apart changes =>
    rename_i d e
    have first : d.ifName = c.ifName := by simpa [Node.children] using name
    apply apart
    rw [List.inj_on_of_nodup_map old.unique other was first,
      List.inj_on_of_nodup_map new.unique also is (same.symm.trans first)]
  | created other fresh =>
    rename_i d
    have same : d.ifName = c.ifName := by simpa using name
    exact fresh (List.mem_map.mpr ⟨c, was, same.symm⟩)

/-- An entry that is not in the diff is the same in both configurations. -/
theorem same_of_not_changed (unchanged : x ∉ changed old new) :
    (old.clients.find? fun c => c.ifName = x) = new.clients.find? fun c => c.ifName = x := by
  cases before : old.clients.find? fun c => c.ifName = x with
  | none =>
    cases after : new.clients.find? fun c => c.ifName = x with
    | none => rfl
    | some d =>
      obtain rfl : d.ifName = x := by simpa using List.find?_some after
      refine absurd (changed_of_mem (n := d.node.mark .create) ?_ (by simp) (by simp)) unchanged
      refine (mem_diffSiblings _ _).mpr (.inr ⟨d.node, ?_, by rw [partner_client, before]; rfl, rfl⟩)
      exact List.mem_cons_of_mem _ (List.mem_map_of_mem (List.mem_of_find?_eq_some after))
  | some c =>
    obtain rfl : c.ifName = x := by simpa using List.find?_some before
    have inside : c.node ∈ old.nodes :=
      List.mem_cons_of_mem _ (List.mem_map_of_mem (List.mem_of_find?_eq_some before))
    cases after : new.clients.find? fun d => d.ifName = c.ifName with
    | none =>
      refine absurd (changed_of_mem (n := c.node.mark .delete) ?_ (by simp) (by simp)) unchanged
      exact (mem_diffSiblings _ _).mpr (.inl ⟨c.node, inside, .inl ⟨by rw [partner_client, after]; rfl, rfl⟩⟩)
    | some d =>
      have same : d.ifName = c.ifName := by simpa using List.find?_some after
      by_contra apart
      have differs : diffSiblings c.node.children d.node.children ≠ [] :=
        fun none => apart (congrArg some ((diff_leaves c d same.symm).mp none))
      obtain ⟨n, more, changes⟩ := List.exists_cons_of_ne_nil differs
      have node := diffNode_client c d
      rw [changes] at node
      refine unchanged (changed_of_mem ((mem_diffSiblings _ _).mpr (.inl ⟨c.node, inside, .inr ⟨d.node, ?_, node⟩⟩))
        rfl (key_leaf _ _ _ _))
      rw [partner_client, after]
      rfl

end Entries

/-- The service file of every entry can be written, and its name is one word. -/
def Usable (host : Host) (cfg : Config) : Prop :=
  ∀ c ∈ cfg.clients, Finit.Literal c.ifName ∧ host.opens (Finit.available ("dhcp-" ++ c.ifName)) = true

theorem del_enabled (host : Host) (literal : Finit.Literal ifname) (finit : Finit) (x : String) :
    (del host ifname finit).enabled ("dhcp-" ++ x) =
      if x = ifname then false else finit.enabled ("dhcp-" ++ x) := by
  have line := Finit.systemf_initctl host.interpret finit "-bfq" "delete" "dhcp-" literal (by decide) (by decide)
    (by decide)
  rw [del, show ("initctl -bfq delete dhcp-" : String) = "initctl " ++ "-bfq" ++ " " ++ "delete" ++ " " ++ "dhcp-"
    by decide, line]
  simp [Finit.initctl, Finit.set]

theorem add_enabled (host : Host) (literal : Finit.Literal ifname) (opens : host.opens (Finit.available ("dhcp-" ++ ifname)) = true)
    (clientId : Option String) (finit : Finit) (x : String) :
    (add host ifname clientId finit).enabled ("dhcp-" ++ x) =
      if x = ifname then true else finit.enabled ("dhcp-" ++ x) := by
  have line (finit : Finit) := Finit.systemf_initctl host.interpret finit "-bfq" "enable" "dhcp-" literal (by decide)
    (by decide) (by decide)
  rw [add, if_pos opens, show ("initctl -bfq enable dhcp-" : String) =
    "initctl " ++ "-bfq" ++ " " ++ "enable" ++ " " ++ "dhcp-" by decide, line]
  simp [Finit.initctl, Finit.set]

/-- The entry of an interface is found in the configuration. -/
theorem find_client {cfg : Config} (member : c ∈ cfg.clients) :
    ∃ cif, (clientIfs cfg.tree).find? (fun cif => ifName cif = c.ifName) = some cif ∧
      lydxIsEnabled cif "enabled" = c.enabled := by
  have there : ((clientIfs cfg.tree).find? fun cif => ifName cif = c.ifName).isSome := by
    obtain ⟨rest, inside⟩ := lyxList_of_mem "dhcp-client" "client-if" [] .plain cfg.nodes [] none
      (List.mem_cons_of_mem _ (List.mem_map_of_mem member)) (node_name c)
    rw [List.find?_isSome]
    refine ⟨_, inside, ?_⟩
    simp [ifName, lydxGetCattr_eq]
  obtain ⟨cif, found⟩ := Option.isSome_iff_exists.mp there
  refine ⟨cif, found, ?_⟩
  obtain ⟨n, rest, rfl, inside, named⟩ := mem_lyxList "dhcp-client" "client-if" [] .plain cfg.nodes [] none
    (List.mem_of_find?_eq_some found)
  obtain ⟨d, also, rfl⟩ := client_of_node inside named
  have same := List.find?_some found
  simp only [ifName, lydxGetCattr_eq, node_key, Option.getD_some, decide_eq_true_eq] at same
  rw [List.inj_on_of_nodup_map cfg.unique also member same, lydxIsEnabled, lydxGetCattr_eq]
  have value : valueOf c.node.children "enabled" = some (boolText c.enabled) := by
    simp [ClientIf.node, ClientIf.leaves, Node.children, valueOf, Node.name, Node.value]
  rw [value, Bool.eq_iff_iff, decide_eq_true_eq, Option.some.injEq, boolText_true]

/-- One pass sets the service of its interface to what the configuration wants. -/
theorem changeOne_enabled {old new : Config} (host : Host) (before : Usable host old) (after : Usable host new)
    (member : q ∈ clientIfs (diffSiblings old.tree new.tree)) (finit : Finit) (x : String) :
    (changeOne host new.enabled (clientIfs new.tree) finit q).enabled ("dhcp-" ++ x) =
      if x = ifName q then decide (Wants new x) else finit.enabled ("dhcp-" ++ x) := by
  obtain ⟨n, rest, rfl, entry⟩ := mem_clientIfs member
  have read (n : Node) : ifName ⟨n :: rest, some .none⟩ = (valueOf n.children "if-name").getD "" := by
    rw [ifName, lydxGetCattr_eq]
  have kept {c : ClientIf} (is : c ∈ new.clients) (name : ifName ⟨n :: rest, some .none⟩ = c.ifName)
      (alive : lydxGetOp ⟨n :: rest, some .none⟩ ≠ .delete) :
      (changeOne host new.enabled (clientIfs new.tree) finit ⟨n :: rest, some .none⟩).enabled ("dhcp-" ++ x) =
        if x = c.ifName then decide (Wants new x) else finit.enabled ("dhcp-" ++ x) := by
    obtain ⟨cif, found, enabled⟩ := find_client is
    have wants : Wants new c.ifName ↔ new.enabled = true ∧ c.enabled = true := by
      refine and_congr_right fun _ => ⟨?_, fun on => ⟨c, is, rfl, on⟩⟩
      rintro ⟨d, also, same, on⟩
      rwa [← List.inj_on_of_nodup_map new.unique also is same]
    rw [changeOne, if_neg alive, name, found]
    simp only [enabled]
    by_cases on : Wants new c.ifName
    · rw [if_neg (by simp [wants.mp on]), add_enabled host (after c is).1 (after c is).2]
      split
      · rename_i here
        simp [here, on]
      · rfl
    · have off : (!new.enabled || !c.enabled) = true := by
        rw [wants, not_and_or] at on
        simpa using on
      rw [if_pos off, del_enabled host (after c is).1]
      split
      · rename_i here
        simp [here, on]
      · rfl
  cases entry with
  | deleted was gone =>
    rename_i c
    have name : ifName ⟨c.node.mark .delete :: rest, some .none⟩ = c.ifName := by simp [read]
    rw [changeOne, if_pos (by simp [lydxGetOp, Ptr.operation]), name, del_enabled host (before c was).1]
    split
    · rename_i here
      have unwanted : ¬Wants new c.ifName := by
        rintro ⟨_, d, also, same, _⟩
        exact gone (List.mem_map.mpr ⟨d, also, same⟩)
      simp [here, unwanted]
    · rfl
  | kept was is same apart changes =>
    rename_i c d
    have name : ifName ⟨.inner "client-if" ["if-name"] ⟨some .none, none, none⟩
        (.leaf "if-name" c.ifName false .plain :: changes) :: rest, some .none⟩ = d.ifName := by
      simp [read, Node.children, same]
    rw [kept is name (by simp [lydxGetOp, Ptr.operation, Node.data]), name]
  | created is fresh =>
    rename_i c
    have name : ifName ⟨c.node.mark .create :: rest, some .none⟩ = c.ifName := by simp [read]
    rw [kept is name (by simp [lydxGetOp, Ptr.operation]), name]

/-- The whole loop does so for the interfaces of the diff. -/
theorem commit_enabled (host : Host) (s : Running) (new : Config) (before : Usable host s.cfg)
    (after : Usable host new) (x : String) : (s.commit host new).finit.enabled ("dhcp-" ++ x) =
      if x ∈ changed s.cfg new then decide (Wants new x) else s.finit.enabled ("dhcp-" ++ x) := by
  have ena : lydxIsEnabled (lydxGetDescendant (.root new.tree) ["dhcp-client"]) "enabled" = new.enabled := by
    have value : lydxGetCattr (lydxGetDescendant (.root new.tree) ["dhcp-client"]) "enabled" =
        some (boolText new.enabled) := by
      simp [Config.tree, Config.nodes, Ptr.root, lydxGetDescendant, lydxGetSibling, Node.name, lydxGetCattr_eq, valueOf,
        Node.children, Node.value]
    rw [lydxIsEnabled, value, Bool.eq_iff_iff, decide_eq_true_eq, Option.some.injEq, boolText_true]
  have loop (entries : List Ptr) (included : entries ⊆ clientIfs (diffSiblings s.cfg.tree new.tree)) (finit : Finit) :
      (entries.foldl (changeOne host new.enabled (clientIfs new.tree)) finit).enabled ("dhcp-" ++ x) =
        if x ∈ entries.map ifName then decide (Wants new x) else finit.enabled ("dhcp-" ++ x) := by
    induction entries generalizing finit with
    | nil => simp
    | cons q rest ih =>
      rw [List.cons_subset] at included
      rw [List.foldl_cons, ih included.2, changeOne_enabled host before after included.1]
      by_cases later : x ∈ rest.map ifName
      · simp [later]
      · by_cases here : x = ifName q
        · simp [here]
        · simp [later, here]
  rw [Running.commit, clientChange]
  simp only [ena]
  exact loop _ (List.Subset.refl _) s.finit

/-- If the switch of the module is thrown, no entry that is on is left as it was. -/
def Covers (old new : Config) : Prop :=
  old.enabled = new.enabled ∨ ∀ c ∈ new.clients, c ∈ old.clients → c.enabled = false

instance (old new : Config) : Decidable (Covers old new) :=
  inferInstanceAs (Decidable (_ ∨ ∀ c ∈ new.clients, _ → _))

theorem wants_iff_find (cfg : Config) (x : String) :
    Wants cfg x ↔ cfg.enabled = true ∧ ∃ c, (cfg.clients.find? fun c => c.ifName = x) = some c ∧ c.enabled = true := by
  refine and_congr_right fun _ => ⟨?_, ?_⟩
  · rintro ⟨c, member, rfl, on⟩
    have there : (cfg.clients.find? fun d => d.ifName = c.ifName).isSome := by
      rw [List.find?_isSome]
      exact ⟨c, member, by simp⟩
    obtain ⟨d, found⟩ := Option.isSome_iff_exists.mp there
    have same : d.ifName = c.ifName := by simpa using List.find?_some found
    rw [List.inj_on_of_nodup_map cfg.unique (List.mem_of_find?_eq_some found) member same] at found
    exact ⟨c, found, on⟩
  · rintro ⟨c, found, on⟩
    exact ⟨c, List.mem_of_find?_eq_some found, by simpa using List.find?_some found, on⟩

theorem follows_commit_iff (host : Host) (s : Running) (new : Config) (follows : Follows s)
    (before : Usable host s.cfg) (after : Usable host new) :
    Follows (s.commit host new) ↔ Covers s.cfg new := by
  have services (x : String) : (s.commit host new).finit.enabled ("dhcp-" ++ x) = true ↔
      if x ∈ changed s.cfg new then Wants new x else Wants s.cfg x := by
    rw [commit_enabled host s new before after]
    split
    · simp
    · exact follows x
  constructor
  · intro follows'
    by_contra uncovered
    simp only [Covers, not_or, not_forall, Bool.not_eq_false] at uncovered
    obtain ⟨thrown, c, is, was, on⟩ := uncovered
    have same := (services c.ifName).symm.trans (follows' c.ifName)
    rw [if_neg (not_changed was is)] at same
    have entry (cfg : Config) (member : c ∈ cfg.clients) : Wants cfg c.ifName ↔ cfg.enabled = true :=
      ⟨And.left, fun switch => ⟨switch, c, member, rfl, on⟩⟩
    rw [entry _ was, show (s.commit host new).cfg = new from rfl, entry _ is] at same
    exact thrown (Bool.eq_iff_iff.mpr same)
  · intro covers x
    rw [services]
    split
    · rfl
    · rename_i unchanged
      have find := same_of_not_changed unchanged
      rw [show (s.commit host new).cfg = new from rfl, wants_iff_find, wants_iff_find, find]
      rcases covers with switch | off
      · rw [switch]
      · refine ⟨fun wants => ?_, fun wants => ?_⟩
        · obtain ⟨_, c, found, on⟩ := wants
          have is := List.mem_of_find?_eq_some found
          simp [off c is (List.mem_of_find?_eq_some (find.trans found))] at on
        · obtain ⟨_, c, found, on⟩ := wants
          have is := List.mem_of_find?_eq_some found
          simp [off c is (List.mem_of_find?_eq_some (find.trans found))] at on

/-- What committed transactions reach from the empty configuration. -/
inductive Runs (host : Host) : Running → Prop
  | start (finit : Finit) (idle : ∀ ifname, finit.enabled ("dhcp-" ++ ifname) = false) : Runs host ⟨.empty, finit⟩
  | commit (before : Runs host s) (usable : Usable host new) (covers : Covers s.cfg new) :
      Runs host (s.commit host new)

/-- The clients follow the configuration as long as the switch of the module is not
thrown while entries that are on stay as they are; when it is, they do not. -/
theorem clients_follow (host : Host) :
    (∀ s, Runs host s → Follows s) ∧
    ∀ s new, Runs host s → Usable host new → (Follows (s.commit host new) ↔ Covers s.cfg new) := by
  have runs (s : Running) (run : Runs host s) : Follows s ∧ Usable host s.cfg := by
    induction run with
    | start finit idle =>
      refine ⟨fun x => ?_, by simp [Usable, Config.empty]⟩
      simp [idle, Wants, Config.empty]
    | commit before usable covers ih => exact ⟨(follows_commit_iff host _ _ ih.1 ih.2 usable).mpr covers, usable⟩
  refine ⟨fun s run => (runs s run).1, fun s new run usable => ?_⟩
  exact follows_commit_iff host s new (runs s run).1 (runs s run).2 usable

/-- A host on which every service file can be written. -/
def calmHost : Host := ⟨fun _ => true, fun _ finit => finit⟩

def started : Running := ⟨.empty, ⟨fun _ => none, fun _ => false⟩⟩

/-- A single client, with the switch of the module on or off. -/
def oneClient (on : Bool) : Config := ⟨on, on, [⟨"eth0", true, true, none⟩], by decide⟩

theorem clients_follow_one :
    (started.commit calmHost (oneClient true)).finit.enabled "dhcp-eth0" = true ∧
    Follows (started.commit calmHost (oneClient true)) ∧
    (Follows ((started.commit calmHost (oneClient true)).commit calmHost (oneClient false)) ↔
      Covers (oneClient true) (oneClient false)) := by
  have usable (on : Bool) : Usable calmHost (oneClient on) := by
    intro c member
    rw [List.mem_singleton.mp member]
    exact ⟨by decide, rfl⟩
  have run : Runs calmHost (started.commit calmHost (oneClient true)) :=
    .commit (.start _ fun _ => rfl) (usable true) (by decide)
  have results := clients_follow calmHost
  exact ⟨by decide +kernel, results.1 _ run, results.2 _ _ run (usable false)⟩

/-- Switching the module off leaves the client running. -/
theorem switch_off_keeps_client :
    let s := (started.commit calmHost (oneClient true)).commit calmHost (oneClient false)
    s.finit.enabled ("dhcp-" ++ "eth0") = true ∧ ¬Wants s.cfg "eth0" ∧ ¬Follows s := by
  intro s
  have enabled : s.finit.enabled ("dhcp-" ++ "eth0") = true := by decide +kernel
  have unwanted : ¬Wants s.cfg "eth0" := by decide +kernel
  exact ⟨enabled, unwanted, fun follows => unwanted ((follows "eth0").mp enabled)⟩

end InfixDhcp
