import InfixOS.Exec.Program
import InfixOS.Graph.Walk

/-! A program that goes through a graph by recursion: everything below a vertex first,
and then something for the vertex itself. It does that for the vertices of the walk, in
their order; when its stack is used up it stops with an error. -/
namespace Graph
open Exec

variable {N ε σ β γ : Type}

def traverse (next : N → List N) (leave : N → Program ε σ β) (exhausted : Program ε σ β) : Nat → N → Program ε σ β
  | 0, _ => exhausted
  | stack + 1, v => do
    Program.forEach (next v) fun c => do
      let _ ← traverse next leave exhausted stack c
    leave v

/-- A walk that comes to its end, or the error. -/
def walkedBy (after : σ → N → σ) (stop : σ → ε × σ) (w : List N × Bool) (b : β) (s : σ) : Except ε β × σ :=
  if w.2 then (.ok b, w.1.foldl after s)
  else (.error (stop (w.1.foldl after s)).1, (stop (w.1.foldl after s)).2)

section WalkedBy
variable {after : σ → N → σ} {stop : σ → ε × σ} {w w' : List N × Bool} {s : σ} {b : β} {c : γ}

theorem walkedBy_bind {m : Program ε σ β} {f : β → Program ε σ γ} (first : m s = walkedBy after stop w b s)
    (second : f b (w.1.foldl after s) = walkedBy after stop w' c (w.1.foldl after s)) :
    (m >>= f) s = walkedBy after stop (if w.2 then (w.1 ++ w'.1, w'.2) else (w.1, false)) c s := by
  rw [walkedBy] at first
  split at first
  · rename_i complete
    rw [Program.bind_eq first, second, walkedBy, walkedBy, if_pos complete]
    simp only [List.foldl_append]
  · rename_i broken
    rw [Program.bind_error first, walkedBy, if_neg broken]
    rfl

theorem walkedBy_map {m : Program ε σ β} (first : m s = walkedBy after stop w b s) (f : β → γ) :
    (do let b ← m; pure (f b) : Program ε σ γ) s = walkedBy after stop w (f b) s := by
  rw [walkedBy] at first ⊢
  split at first
  · rename_i complete
    rw [if_pos complete]
    exact Program.bind_eq first _
  · rename_i broken
    rw [if_neg broken]
    exact Program.bind_error first _

end WalkedBy

section Traverse
variable {next : N → List N} {leave : N → Program ε σ β} {exhausted : Program ε σ β}
  {result : σ → N → β} {after : σ → N → σ} {stop : σ → ε × σ}

/-- What is returned for a vertex, after everything below it. -/
def lastResult (next : N → List N) (result : σ → N → β) (after : σ → N → σ) (stack : Nat) (s : σ) (v : N) : β :=
  result ((walk next stack v).1.dropLast.foldl after s) v

theorem traverse_eq (leaves : ∀ v s, leave v s = (.ok (result s v), after s v))
    (stops : ∀ s, exhausted s = (.error (stop s).1, (stop s).2)) (stack : Nat) (v : N) (s : σ) :
    traverse next leave exhausted stack v s =
      walkedBy after stop (walk next stack v) (lastResult next result after stack s v) s := by
  induction stack generalizing v s with
  | zero => exact stops s
  | succ stack ih =>
    have children : ∀ (links : List N) (s : σ),
        Program.forEach links (fun c => do let _ ← traverse next leave exhausted stack c) s =
          walkedBy after stop (walkAll (walk next stack) links) () s := by
      intro links
      induction links with
      | nil => exact fun s => rfl
      | cons link rest links_ih =>
        intro s
        exact walkedBy_bind (walkedBy_map (ih link s) fun _ => ()) (links_ih _)
    have last (s : σ) : leave v s = walkedBy after stop ([v], true) (result s v) s := leaves v s
    rw [traverse, walkedBy_bind (children (next v) s) (last _), walk]
    by_cases complete : (walkAll (walk next stack) (next v)).2 = true
    · rw [if_pos complete, lastResult, walk, if_pos complete, List.dropLast_concat]
    · rw [if_neg complete]
      rfl

end Traverse

section Stack
variable {next : N → List N}

/-- A larger stack makes no difference once one is large enough. -/
theorem walk_mono (complete : (walk next stack v).2 = true) (more : stack ≤ stack') :
    walk next stack' v = walk next stack v := by
  induction stack generalizing v stack' with
  | zero => cases complete
  | succ stack ih =>
    obtain ⟨larger, rfl⟩ : ∃ larger, stack' = larger + 1 := ⟨stack' - 1, by omega⟩
    have below := walk_succ_complete complete
    have same : ∀ c ∈ next v, walk next larger c = walk next stack c := fun c edge => ih (below c edge) (by omega)
    rw [walk_succ_eq below, walk_succ_eq fun c edge => by rw [same c edge]; exact below c edge]
    congr 2
    exact List.flatMap_congr fun c edge => by rw [same c edge]

theorem walkAll_mono {roots : List N} (complete : (walkAll (walk next stack) roots).2 = true) (more : stack ≤ stack') :
    walkAll (walk next stack') roots = walkAll (walk next stack) roots := by
  have each := walkAll_complete.mp complete
  have same : ∀ v ∈ roots, walk next stack' v = walk next stack v := fun v member => walk_mono (each v member) more
  rw [walkAll_eq_flatMap each, walkAll_eq_flatMap fun v member => by rw [same v member]; exact each v member]
  congr 1
  exact List.flatMap_congr fun v member => by rw [same v member]

/-- No vertex that can be reached from the roots leads back to itself. -/
def AcyclicFrom (next : N → List N) (roots : List N) : Prop :=
  ∀ r ∈ roots, ∀ v, Relation.ReflTransGen (Edge next) r v → ¬Relation.TransGen (Edge next) v v

theorem acyclicFrom_of_ends {roots : List N} (ends : (walkAll (walk next stack) roots).2 = true) :
    AcyclicFrom next roots := by
  intro r member v path cycle
  have broken : (walk next stack r).2 = false := walk_into_cycle path cycle
  rw [walkAll_complete.mp ends r member] at broken
  cases broken

/-- If the recursion meets no cycle, then it ends with a stack of one call for each
vertex. -/
theorem AcyclicFrom.ends {roots nodes : List N} (acyclic : AcyclicFrom next roots) (inside : ∀ r ∈ roots, r ∈ nodes)
    (closed : ∀ u ∈ nodes, ∀ c ∈ next u, c ∈ nodes) (enough : nodes.length ≤ stack) :
    (walkAll (walk next stack) roots).2 = true := by
  classical
  let reached := nodes.filter fun v => ∃ r ∈ roots, Relation.ReflTransGen (Edge next) r v
  have listed (v : N) : v ∈ reached ↔ v ∈ nodes ∧ ∃ r ∈ roots, Relation.ReflTransGen (Edge next) r v := by
    simp [reached]
  have noCycle : Acyclic next reached := by
    intro v member
    obtain ⟨r, root, path⟩ := ((listed v).mp member).2
    exact acyclic r root v path
  have reachedClosed : ∀ u ∈ reached, ∀ c ∈ next u, c ∈ reached := by
    intro u member c edge
    obtain ⟨node, r, root, path⟩ := (listed u).mp member
    exact (listed c).mpr ⟨closed u node c edge, r, root, path.tail edge⟩
  refine walkAll_complete.mpr fun r root => ?_
  have member : r ∈ reached := (listed r).mpr ⟨inside r root, r, root, .refl⟩
  have fewer : reached.length ≤ stack := Nat.le_trans (List.length_filter_le _ _) enough
  rw [walk_eq_visit noCycle (.root reached reachedClosed member fewer)]

end Stack

end Graph
