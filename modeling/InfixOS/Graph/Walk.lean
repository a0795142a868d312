import InfixOS.Graph.PostOrder

/-! The walk of a graph by a recursion that knows nothing but the vertex it is in:
everything below first, then the vertex. With a stack of limited depth it may break
off; what has been left until then is the list it returns. -/
namespace Graph
variable {N : Type}

/-- Walks one after the other, up to the first that breaks off. -/
def walkAll (walk : N → List N × Bool) : List N → List N × Bool
  | [] => ([], true)
  | v :: rest =>
    if (walk v).2 then ((walk v).1 ++ (walkAll walk rest).1, (walkAll walk rest).2) else ((walk v).1, false)

/-- The vertices in the order in which the recursion leaves them, and whether it comes
to its end. -/
def walk (next : N → List N) : Nat → N → List N × Bool
  | 0, _ => ([], false)
  | stack + 1, v =>
    if (walkAll (walk next stack) (next v)).2 then ((walkAll (walk next stack) (next v)).1 ++ [v], true)
    else ((walkAll (walk next stack) (next v)).1, false)

variable {next : N → List N}

theorem walkAll_complete {walk : N → List N × Bool} {roots : List N} :
    (walkAll walk roots).2 = true ↔ ∀ v ∈ roots, (walk v).2 = true := by
  induction roots with
  | nil => simp [walkAll]
  | cons v rest ih =>
    rw [walkAll, List.forall_mem_cons]
    split
    · rename_i complete
      simp [complete, ih]
    · rename_i broken
      simp [broken]

theorem walkAll_eq_flatMap {walk : N → List N × Bool} {roots : List N} (complete : ∀ v ∈ roots, (walk v).2 = true) :
    walkAll walk roots = (roots.flatMap fun v => (walk v).1, true) := by
  induction roots with
  | nil => rfl
  | cons v rest ih =>
    rw [List.forall_mem_cons] at complete
    rw [walkAll, if_pos complete.1, ih complete.2, List.flatMap_cons]

theorem walkAll_subset {walk : N → List N × Bool} {roots nodes : List N} (each : ∀ v ∈ roots, ∀ u ∈ (walk v).1, u ∈ nodes) :
    ∀ u ∈ (walkAll walk roots).1, u ∈ nodes := by
  induction roots with
  | nil => simp [walkAll]
  | cons v rest ih =>
    rw [List.forall_mem_cons] at each
    rw [walkAll]
    split
    · intro u member
      rcases List.mem_append.mp member with first | later
      · exact each.1 u first
      · exact ih each.2 u later
    · exact each.1

/-- Also a walk that breaks off stays among the vertices. -/
theorem walk_subset {nodes : List N} (closed : ∀ u ∈ nodes, ∀ c ∈ next u, c ∈ nodes) (member : v ∈ nodes) :
    ∀ u ∈ (walk next stack v).1, u ∈ nodes := by
  induction stack generalizing v with
  | zero => simp [walk]
  | succ stack ih =>
    have below := walkAll_subset fun c edge => ih (closed v member c edge)
    rw [walk]
    split
    · intro u listed
      rcases List.mem_append.mp listed with first | last
      · exact below u first
      · rwa [List.mem_singleton.mp last]
    · exact below

theorem walk_succ_complete (complete : (walk next (stack + 1) v).2 = true) :
    ∀ c ∈ next v, (walk next stack c).2 = true := by
  rw [walk] at complete
  split at complete
  · rename_i below
    exact walkAll_complete.mp below
  · cases complete

theorem walk_succ_eq (below : ∀ c ∈ next v, (walk next stack c).2 = true) :
    walk next (stack + 1) v = ((next v).flatMap (fun c => (walk next stack c).1) ++ [v], true) := by
  rw [walk, walkAll_eq_flatMap below]
  rfl

/-- A walk that comes to its end has left what can be reached, and nothing else. -/
theorem mem_walk (complete : (walk next stack v).2 = true) :
    u ∈ (walk next stack v).1 ↔ Relation.ReflTransGen (Edge next) v u := by
  induction stack generalizing v with
  | zero => cases complete
  | succ stack ih =>
    have below := walk_succ_complete complete
    rw [walk_succ_eq below, List.mem_append, List.mem_flatMap, List.mem_singleton]
    constructor
    · rintro (⟨c, edge, member⟩ | rfl)
      · exact .head edge ((ih (below c edge)).mp member)
      · exact .refl
    · intro path
      rcases Relation.ReflTransGen.cases_head path with rfl | ⟨c, edge, rest⟩
      · exact .inr rfl
      · exact .inl ⟨c, edge, (ih (below c edge)).mpr rest⟩

/-- A walk that comes to its end ends in its own vertex. -/
theorem walk_eq_concat (complete : (walk next stack v).2 = true) :
    ∃ below, (walk next stack v).1 = below ++ [v] ∧ ∀ u ∈ below, Relation.TransGen (Edge next) v u := by
  cases stack with
  | zero => cases complete
  | succ stack =>
    have children := walk_succ_complete complete
    refine ⟨_, by rw [walk_succ_eq children], ?_⟩
    intro u member
    obtain ⟨c, edge, member⟩ := List.mem_flatMap.mp member
    exact .head' edge ((mem_walk (children c edge)).mp member)

theorem walk_complete_of_path (path : Relation.ReflTransGen (Edge next) v u)
    (complete : (walk next stack v).2 = true) : ∃ less ≤ stack, (walk next less u).2 = true := by
  induction path using Relation.ReflTransGen.head_induction_on generalizing stack with
  | refl => exact ⟨stack, Nat.le_refl stack, complete⟩
  | head edge rest ih =>
    cases stack with
    | zero => cases complete
    | succ stack =>
      obtain ⟨less, bound, ended⟩ := ih (walk_succ_complete complete _ edge)
      exact ⟨less, by omega, ended⟩

/-- Into a cycle the recursion goes until the stack is used up. -/
theorem walk_cycle (cycle : Relation.TransGen (Edge next) v v) : (walk next stack v).2 = false := by
  induction stack using Nat.strongRecOn with
  | _ stack ih =>
    by_contra complete
    rw [Bool.not_eq_false] at complete
    cases stack with
    | zero => cases complete
    | succ stack =>
      obtain ⟨c, edge, rest⟩ := Relation.TransGen.head'_iff.mp cycle
      obtain ⟨less, bound, ended⟩ := walk_complete_of_path rest (walk_succ_complete complete c edge)
      rw [ih less (by omega)] at ended
      cases ended

theorem walk_into_cycle (path : Relation.ReflTransGen (Edge next) v u) (cycle : Relation.TransGen (Edge next) u u) :
    (walk next stack v).2 = false := by
  by_contra complete
  rw [Bool.not_eq_false] at complete
  obtain ⟨less, _, ended⟩ := walk_complete_of_path path complete
  rw [walk_cycle cycle] at ended
  cases ended

/-- Without a cycle a stack of one call for each vertex is enough. -/
theorem walk_eq_visit [DecidableEq N] (acyclic : Acyclic next nodes) (descent : Descent next nodes stack above v) :
    walk next stack v = (visit next stack above v, true) := by
  induction stack generalizing above v with
  | zero => exact absurd descent.positive (by simp)
  | succ stack ih =>
    have child (c : N) (edge : c ∈ next v) := descent.step acyclic edge
    have below (c : N) (edge : c ∈ next v) := ih (child c edge).2
    rw [walk_succ_eq (fun c edge => by rw [below c edge]), visit]
    congr 2
    apply List.flatMap_congr
    intro c edge
    rw [below c edge, if_neg (child c edge).1]

/-- The walks from every vertex of an acyclic graph, in any order of the vertices. -/
theorem walkAll_acyclic [DecidableEq N] {nodes : List N} (acyclic : Acyclic next nodes)
    (closed : ∀ u ∈ nodes, ∀ c ∈ next u, c ∈ nodes) (enough : nodes.length ≤ stack) :
    walkAll (walk next stack) nodes = (nodes.flatMap (visit next stack []), true) := by
  have each (v : N) (member : v ∈ nodes) := walk_eq_visit acyclic (.root nodes closed member enough)
  rw [walkAll_eq_flatMap (fun v member => by rw [each v member])]
  congr 1
  apply List.flatMap_congr
  intro v member
  rw [each v member]

end Graph
