import InfixOS.Posix.Commands
import InfixOS.Graph.PostOrder

/-! `find -L dir -depth -mindepth 1`, by base name. Directories may be
enumerated in any order, a link to a directory is entered, and a directory that
is already on the way down is reported as a loop and left out. A directory that
holds directories of links to their own siblings is a graph, and the walk is
the post-order walk of that graph. -/
namespace Posix.FileTree
variable {α : Type}

/-- The order readdir(3) yields the names of each directory in. -/
structure Enumeration where
  order : Path → List String → List String
  perm : ∀ d names, (order d names).Perm names

def Enumeration.listed : Enumeration := ⟨fun _ names => names, fun _ _ => .refl _⟩

def findBelow (enum : Enumeration) (t : FileTree α) : Nat → List Path → Path → List String
  | 0, _, _ => []
  | fuel + 1, above, d =>
    (enum.order d (t.names d)).flatMap fun c =>
      let q := t.resolve (d ++ [c])
      if t.isDir (d ++ [c]) then
        if q ∈ d :: above then [] else findBelow enum t fuel (d :: above) q ++ [c]
      else [c]

/-- Directories on the way down are distinct, so the fuel is never used up. -/
def findDepth (enum : Enumeration) (t : FileTree α) (d : Path) : List String :=
  if t.isDir d then findBelow enum t (t.entries.length + 1) [] (t.resolve d) else []

/-- What is listed is the name of an entry, in a directory of any kind that the walk does
not leave. -/
theorem findBelow_entry (enum : Enumeration) (t : FileTree α) {P : Path → Prop}
    (closed : ∀ d c, P d → t.isDir (d ++ [c]) = true → P (t.resolve (d ++ [c]))) (start : P d)
    (listed : v ∈ findBelow enum t fuel above d) : ∃ q, P q ∧ (t.get (q ++ [v])).isSome := by
  induction fuel generalizing above d with
  | zero => simp [findBelow] at listed
  | succ fuel ih =>
    simp only [findBelow, List.mem_flatMap] at listed
    obtain ⟨c, member, listed⟩ := listed
    have entry : ∃ q, P q ∧ (t.get (q ++ [c])).isSome :=
      ⟨d, start, mem_names.mp ((enum.perm _ _).mem_iff.mp member)⟩
    split at listed
    · rename_i dir
      split at listed
      · simp at listed
      · rcases List.mem_append.mp listed with below | here
        · exact ih (closed d c start dir) below
        · exact List.mem_singleton.mp here ▸ entry
    · exact List.mem_singleton.mp listed ▸ entry

theorem findDepth_entry (enum : Enumeration) (t : FileTree α) {P : Path → Prop}
    (closed : ∀ d c, P d → t.isDir (d ++ [c]) = true → P (t.resolve (d ++ [c])))
    (start : t.isDir d = true → P (t.resolve d)) (listed : v ∈ findDepth enum t d) :
    ∃ q, P q ∧ (t.get (q ++ [v])).isSome := by
  unfold findDepth at listed
  split at listed
  · rename_i dir
    exact findBelow_entry enum t closed (start dir) listed
  · simp at listed

/-- Every directory in `d` is listed, whatever the links among them are. -/
theorem findDepth_lists (enum : Enumeration) (t : FileTree α) (dir : t.get d = some .dir)
    (found : t.get (d ++ [v]) = some .dir) : v ∈ findDepth enum t d := by
  rw [findDepth, if_pos (t.isDir_of_get dir), t.resolve_of_get (.inl dir), findBelow, List.mem_flatMap]
  refine ⟨v, (enum.perm _ _).mem_iff.mpr (mem_names.mpr (by simp [found])), ?_⟩
  simp [t.isDir_of_get found, t.resolve_of_get (.inl found)]

/-- `d` holds one directory for each node, and in it one link `../c` named `c`
for each dependee `c`, which is a node as well. -/
structure LinkGraph (t : FileTree α) (d : Path) (node : String → Prop)
    (dep : String → String → Prop) : Prop where
  root : t.get d = some .dir
  name : node v → v ≠ ".."
  entry : (t.get (d ++ [v])).isSome → node v
  dir : node v → t.get (d ++ [v]) = some .dir
  link : node v → (t.get (d ++ [v, c])).isSome → dep v c
  target : node v → dep v c → t.get (d ++ [v, c]) = some (.link ["..", c])
  dependee : node v → dep v c → node c

namespace LinkGraph
variable {t : FileTree α} {node : String → Prop} {dep : String → String → Prop}

/-- The dependees of a node as one enumeration lists them. -/
def next (enum : Enumeration) (t : FileTree α) (d : Path) (v : String) : List String :=
  enum.order (d ++ [v]) (t.names (d ++ [v]))

theorem mem_names_iff (graph : LinkGraph t d node dep) : v ∈ t.names d ↔ node v := by
  rw [mem_names]
  constructor
  · exact graph.entry
  · intro member
    simp [graph.dir member]

theorem mem_next (graph : LinkGraph t d node dep) (enum : Enumeration) (member : node v) :
    c ∈ next enum t d v ↔ dep v c := by
  rw [next, (enum.perm _ _).mem_iff, mem_names, List.append_assoc]
  constructor
  · exact graph.link member
  · intro depends
    have found := graph.target member depends
    simp [found]

theorem resolve_node (graph : LinkGraph t d node dep) (member : node v) :
    t.resolve (d ++ [v]) = d ++ [v] := t.resolve_of_get (.inl (graph.dir member))

theorem resolve_link (graph : LinkGraph t d node dep) (member : node v) (depends : dep v c) :
    t.resolve (d ++ [v] ++ [c]) = d ++ [c] := by
  have found : t.get (d ++ [v] ++ [c]) = some (.link ["..", c]) := by
    simpa using graph.target member depends
  have dependee := graph.dependee member depends
  have reached : walk ((d ++ [v] ++ [c]).dropLast) ["..", c] = d ++ [c] := by
    simp [walk, graph.name dependee]
  rw [resolve, follow, found]
  simp only [reached]
  apply t.follow_of_not_link
  intro target link
  simp [graph.dir dependee] at link

theorem isDir_link (graph : LinkGraph t d node dep) (member : node v) (depends : dep v c) :
    t.isDir (d ++ [v] ++ [c]) = true := by
  rw [isDir_iff, graph.resolve_link member depends]
  exact graph.dir (graph.dependee member depends)

/-- Below a node the file walk is the graph walk; the way down to it is the
way through the graph, with the directory of all nodes at its end. -/
theorem findBelow_eq (graph : LinkGraph t d node dep) (enum : Enumeration) (member : node v)
    (fuel : Nat) (above : List String) :
    findBelow enum t fuel (above.map (d ++ [·]) ++ [d]) (d ++ [v]) ++ [v] =
      Graph.visit (next enum t d) fuel above v := by
  induction fuel generalizing above v with
  | zero => rfl
  | succ fuel ih =>
    simp only [findBelow, Graph.visit]
    congr 1
    apply List.flatMap_congr
    intro c edge
    have depends := (graph.mem_next enum member).mp edge
    have dependee := graph.dependee member depends
    have way : d ++ [c] ∈ (d ++ [v]) :: (above.map (d ++ [·]) ++ [d]) ↔ c ∈ v :: above := by
      simp
    simp only [graph.isDir_link member depends, graph.resolve_link member depends, if_true, way]
    split
    · rfl
    · exact ih dependee (v :: above)

theorem nodes_bound (t : FileTree α) (d : Path) : (t.names d).length ≤ t.entries.length := by
  have inside : (t.names d).map (d ++ [·]) ⊆ t.paths := by
    intro q member
    obtain ⟨c, found, rfl⟩ := List.mem_map.mp member
    exact mem_paths.mpr (mem_names.mp found)
  have distinct : ((t.names d).map (d ++ [·])).Nodup := by
    refine (t.names_nodup d).map ?_
    intro a b same
    simpa using same
  have short := (List.subperm_of_subset distinct inside).length_le
  have dedup : t.paths.length ≤ t.entries.length := by
    simpa [paths] using (List.dedup_sublist (t.entries.map Prod.fst)).length_le
  simp only [List.length_map] at short
  omega

theorem findDepth_eq (graph : LinkGraph t d node dep) (enum : Enumeration) :
    findDepth enum t d =
      (enum.order d (t.names d)).flatMap (Graph.visit (next enum t d) t.entries.length []) := by
  have plain := t.resolve_of_get (.inl graph.root)
  simp only [findDepth, t.isDir_of_get graph.root, if_true, plain, findBelow]
  apply List.flatMap_congr
  intro v listed
  have member := graph.mem_names_iff.mp ((enum.perm _ _).mem_iff.mp listed)
  simp only [t.isDir_of_get (graph.dir member), graph.resolve_node member, if_true]
  rw [if_neg (by simp)]
  exact graph.findBelow_eq enum member t.entries.length []

theorem edge_dep (graph : LinkGraph t d node dep) (enum : Enumeration) (member : node v)
    (path : Relation.TransGen (Graph.Edge (next enum t d)) v c) :
    Relation.TransGen (fun a b => node a ∧ dep a b) v c ∧ node c := by
  induction path with
  | single edge =>
    have depends := (graph.mem_next enum member).mp edge
    exact ⟨.single ⟨member, depends⟩, graph.dependee member depends⟩
  | tail _ edge ih =>
    have depends := (graph.mem_next enum ih.2).mp edge
    exact ⟨ih.1.tail ⟨ih.2, depends⟩, graph.dependee ih.2 depends⟩

theorem dep_edge (graph : LinkGraph t d node dep) (enum : Enumeration)
    (path : Relation.TransGen (fun a b => node a ∧ dep a b) v c) :
    Relation.TransGen (Graph.Edge (next enum t d)) v c :=
  path.lift id fun _ _ h => (graph.mem_next enum h.1).mpr h.2

/-- First occurrences of the walk are a complete bottom-up order of an acyclic
graph, for every sharing pattern and every enumeration. -/
theorem findDepth_order (graph : LinkGraph t d node dep) (enum : Enumeration)
    (acyclic : ∀ v, ¬Relation.TransGen (fun a b => node a ∧ dep a b) v v) :
    let order := Graph.unseen [] (findDepth enum t d)
    order.Nodup ∧ (∀ v, v ∈ order ↔ node v) ∧
      ∀ v c, Relation.TransGen (fun a b => node a ∧ dep a b) v c → Graph.Before order c v := by
  have nodes (v : String) : v ∈ t.names d ↔ node v := graph.mem_names_iff
  have sound : Graph.Acyclic (next enum t d) (t.names d) := by
    intro v member cycle
    exact acyclic v (graph.edge_dep enum ((nodes v).mp member) cycle).1
  have closed : ∀ u ∈ t.names d, ∀ c ∈ next enum t d u, c ∈ t.names d := by
    intro u member c edge
    have parent := (nodes u).mp member
    exact (nodes c).mpr (graph.dependee parent ((graph.mem_next enum parent).mp edge))
  obtain ⟨distinct, complete, ordered⟩ := Graph.bottomUp_order (t.names d)
    (enum.order d (t.names d)) sound closed (nodes_bound t d) fun v => (enum.perm _ _).mem_iff
  rw [graph.findDepth_eq enum]
  refine ⟨distinct, fun v => (complete v).trans (nodes v), ?_⟩
  intro v c path
  have start : node v := by
    cases Relation.TransGen.head'_iff.mp path with
    | intro _ h => exact h.1.1
  exact ordered.before (graph.dep_edge enum path) ((complete v).mpr ((nodes v).mpr start))

end LinkGraph
end Posix.FileTree
