import Mathlib.Data.List.Nodup
import Mathlib.Logic.Relation
import Mathlib.Order.RelClasses
import Mathlib.Data.List.Perm.Subperm

/-! Post-order walks of a graph unfolded into a tree, and the order that keeps
first occurrences only. The successor lists are arbitrary, so a vertex may be
walked any number of times and siblings may come in any order. -/
namespace Graph
variable {N : Type}

def Edge (next : N → List N) (v c : N) : Prop := c ∈ next v

def Acyclic (next : N → List N) (nodes : List N) : Prop :=
  ∀ v ∈ nodes, ¬Relation.TransGen (Edge next) v v

/-- Every successor of a listed vertex occurs before it. -/
def Closed (next : N → List N) (l : List N) : Prop :=
  ∀ before v after, l = before ++ v :: after → ∀ c ∈ next v, c ∈ before

/-- `a` occurs in front of an occurrence of `b`. -/
def Before (l : List N) (a b : N) : Prop := ∃ before after, l = before ++ b :: after ∧ a ∈ before

section Order
variable {next : N → List N}

/-- A number that falls along every edge rules out cycles. -/
theorem Acyclic.of_rank (rank : N → Nat) (falls : ∀ v, ∀ c ∈ next v, rank c < rank v) : Acyclic next nodes := by
  have lower : ∀ v c, Relation.TransGen (Edge next) v c → rank c < rank v := by
    intro v c path
    induction path with
    | single edge => exact falls _ _ edge
    | tail _ edge ih => exact Nat.lt_trans (falls _ _ edge) ih
  exact fun v _ cycle => Nat.lt_irrefl _ (lower v v cycle)

theorem closed_nil : Closed next [] := by
  intro before v after h
  simp at h

theorem closed_append (first : Closed next l) (second : Closed next m) : Closed next (l ++ m) := by
  intro before v after h c member
  rcases List.append_eq_append_iff.mp h with ⟨r, split, rest⟩ | ⟨r, split, rest⟩
  · subst split
    exact List.mem_append_right l (second r v after rest c member)
  · cases r with
    | nil =>
      simp only [List.append_nil] at split
      subst split
      have none := second [] v after (by simpa using rest.symm) c member
      simp at none
    | cons x r =>
      obtain ⟨rfl, _⟩ := List.cons.inj rest
      exact first before v r split c member

theorem closed_snoc (earlier : Closed next l) (inside : ∀ c ∈ next v, c ∈ l) :
    Closed next (l ++ [v]) := by
  intro before w after h c member
  rcases List.append_eq_append_iff.mp h with ⟨r, split, rest⟩ | ⟨r, split, rest⟩
  · cases r with
    | nil =>
      obtain ⟨rfl, _⟩ := List.cons.inj rest
      subst split
      simpa using inside c member
    | cons x r => simp at rest
  · cases r with
    | nil =>
      obtain ⟨rfl, _⟩ := List.cons.inj rest
      subst split
      simpa using inside c member
    | cons x r =>
      obtain ⟨rfl, _⟩ := List.cons.inj rest
      exact earlier before w r split c member

theorem closed_flatMap {f : β → List N} {xs : List β} (each : ∀ x ∈ xs, Closed next (f x)) :
    Closed next (xs.flatMap f) := by
  induction xs with
  | nil => exact closed_nil
  | cons x xs ih =>
    rw [List.flatMap_cons]
    exact closed_append (each x (by simp)) (ih fun y member => each y (by simp [member]))

/-- In a closed list everything reachable from a vertex occurs before it. -/
theorem Closed.reaches (closed : Closed next l) (path : Relation.TransGen (Edge next) v c)
    (split : l = before ++ v :: after) : c ∈ before := by
  induction path with
  | single edge => exact closed before v after split _ edge
  | @tail b _ _ edge ih =>
    obtain ⟨left, right, cut⟩ := List.append_of_mem ih
    have whole : l = left ++ b :: (right ++ v :: after) := by rw [split, cut]; simp
    have found := closed left _ _ whole _ edge
    rw [cut]
    exact List.mem_append_left _ found

theorem Closed.before (closed : Closed next l) (path : Relation.TransGen (Edge next) v c)
    (listed : v ∈ l) : Before l c v := by
  obtain ⟨left, right, split⟩ := List.append_of_mem listed
  exact ⟨left, right, split, closed.reaches path split⟩

theorem Before.reverse (h : Before l a b) : Before l.reverse b a := by
  obtain ⟨before, after, rfl, member⟩ := h
  obtain ⟨left, right, rfl⟩ := List.append_of_mem member
  refine ⟨after.reverse ++ [b] ++ right.reverse, left.reverse, ?_, by simp⟩
  simp

/-- What a walk needs to know about the way down to `v`: distinct vertices of
a finite set closed under successors, each leading to `v`, and enough fuel for
every vertex that is not on the way yet. -/
structure Descent (next : N → List N) (nodes : List N) (fuel : Nat) (above : List N) (v : N) :
    Prop where
  inside : ∀ u ∈ v :: above, u ∈ nodes
  closed : ∀ u ∈ nodes, ∀ c ∈ next u, c ∈ nodes
  leads : ∀ u ∈ above, Relation.TransGen (Edge next) u v
  distinct : (v :: above).Nodup
  enough : nodes.length ≤ fuel + above.length

theorem Descent.positive (descent : Descent next nodes fuel above v) : 0 < fuel := by
  have short := (List.subperm_of_subset descent.distinct descent.inside).length_le
  have enough := descent.enough
  simp only [List.length_cons] at short
  omega

theorem Descent.step (acyclic : Acyclic next nodes) (descent : Descent next nodes (fuel + 1) above v)
    (edge : c ∈ next v) : c ∉ v :: above ∧ Descent next nodes fuel (v :: above) c := by
  have down : ∀ u ∈ v :: above, Relation.TransGen (Edge next) u c := by
    intro u member
    rcases List.mem_cons.mp member with rfl | member
    · exact .single edge
    · exact (descent.leads u member).tail edge
  have member := descent.closed v (descent.inside v (by simp)) c edge
  have fresh : c ∉ v :: above := fun again => acyclic c member (down c again)
  refine ⟨fresh, ?_, descent.closed, down, ?_, ?_⟩
  · intro u listed
    rcases List.mem_cons.mp listed with rfl | above
    · exact member
    · exact descent.inside u above
  · exact List.nodup_cons.mpr ⟨fresh, descent.distinct⟩
  · have enough := descent.enough
    simp only [List.length_cons]
    omega

theorem Descent.root (nodes : List N) (closed : ∀ u ∈ nodes, ∀ c ∈ next u, c ∈ nodes)
    (member : v ∈ nodes) (enough : nodes.length ≤ fuel) : Descent next nodes fuel [] v where
  inside := by simpa using member
  closed := closed
  leads := by simp
  distinct := by simp
  enough := by simpa using enough

end Order

section Walk
variable [DecidableEq N]

/-- Walk everything below `v`, then `v` itself. A successor that is already on
the way down is not entered again, so the walk ends on cyclic graphs too. -/
def visit (next : N → List N) : Nat → List N → N → List N
  | 0, _, v => [v]
  | fuel + 1, above, v =>
    (next v).flatMap (fun c =>
      if c ∈ v :: above then [] else visit next fuel (v :: above) c) ++ [v]

/-- Keep the first occurrence of every element that is not in `seen`. -/
def unseen (seen : List N) : List N → List N
  | [] => []
  | x :: xs => if x ∈ seen then unseen seen xs else x :: unseen (x :: seen) xs

theorem mem_unseen {seen l : List N} : v ∈ unseen seen l ↔ v ∈ l ∧ v ∉ seen := by
  induction l generalizing seen with
  | nil => simp [unseen]
  | cons x xs ih =>
    by_cases old : x ∈ seen
    · simp only [unseen, old, if_true, ih, List.mem_cons]
      constructor
      · rintro ⟨member, fresh⟩; exact ⟨.inr member, fresh⟩
      · rintro ⟨rfl | member, fresh⟩
        · exact absurd old fresh
        · exact ⟨member, fresh⟩
    · simp only [unseen, old, if_false, List.mem_cons, ih, not_or]
      constructor
      · rintro (rfl | ⟨member, _, fresh⟩)
        · exact ⟨.inl rfl, old⟩
        · exact ⟨.inr member, fresh⟩
      · rintro ⟨rfl | member, fresh⟩
        · exact .inl rfl
        · by_cases same : v = x
          · exact .inl same
          · exact .inr ⟨member, same, fresh⟩

/-- Only membership of what has been seen matters. -/
theorem unseen_congr {seen seen' : List N} (same : ∀ v, v ∈ seen ↔ v ∈ seen') (l : List N) :
    unseen seen l = unseen seen' l := by
  induction l generalizing seen seen' with
  | nil => rfl
  | cons x xs ih =>
    have grown : ∀ v, v ∈ x :: seen ↔ v ∈ x :: seen' := by simp [same]
    rw [unseen, unseen, ih same, ih grown]
    simp only [same]

theorem unseen_concat (seen : List N) (x : N) (l : List N) : unseen (seen ++ [x]) l = unseen (x :: seen) l :=
  unseen_congr (by simp [or_comm]) l

theorem unseen_eq_nil {seen l : List N} : unseen seen l = [] ↔ ∀ v ∈ l, v ∈ seen := by
  rw [List.eq_nil_iff_forall_not_mem]
  simp only [mem_unseen, not_and, not_not]

theorem unseen_nodup (seen l : List N) : (unseen seen l).Nodup := by
  induction l generalizing seen with
  | nil => simp [unseen]
  | cons x xs ih =>
    by_cases old : x ∈ seen
    · simpa [unseen, old] using ih seen
    · simp only [unseen, old, if_false, List.nodup_cons]
      exact ⟨by simp [mem_unseen], ih _⟩

variable {next : N → List N}

private theorem unseen_closed_from (seen l : List N)
    (closed : ∀ before v after, l = before ++ v :: after → ∀ c ∈ next v, c ∈ before ∨ c ∈ seen) :
    ∀ before v after, unseen seen l = before ++ v :: after →
      ∀ c ∈ next v, c ∈ before ∨ c ∈ seen := by
  induction l generalizing seen with
  | nil =>
    intro before v after h
    simp [unseen] at h
  | cons x xs ih =>
    intro before v after h c member
    by_cases old : x ∈ seen
    · simp only [unseen, old, if_true] at h
      refine ih seen ?_ before v after h c member
      intro before v after split c member
      rcases closed (x :: before) v after (by simp [split]) c member with inside | inside
      · rcases List.mem_cons.mp inside with rfl | inside
        · exact .inr old
        · exact .inl inside
      · exact .inr inside
    · simp only [unseen, old, if_false] at h
      cases before with
      | nil =>
        obtain ⟨rfl, _⟩ := List.cons.inj h
        exact closed [] x xs rfl c member
      | cons y before =>
        obtain ⟨rfl, tail⟩ := List.cons.inj h
        have found := ih (x :: seen) ?_ before v after tail c member
        · rcases found with inside | inside
          · exact .inl (List.mem_cons_of_mem _ inside)
          · rcases List.mem_cons.mp inside with rfl | inside
            · exact .inl List.mem_cons_self
            · exact .inr inside
        · intro before v after split c member
          rcases closed (x :: before) v after (by simp [split]) c member with inside | inside
          · rcases List.mem_cons.mp inside with rfl | inside
            · exact .inr List.mem_cons_self
            · exact .inl inside
          · exact .inr (List.mem_cons_of_mem _ inside)

/-- First occurrences of a closed list are closed: if every occurrence of a
vertex comes after its successors, then so does the first one. -/
theorem unseen_closed {l : List N} (closed : Closed next l) : Closed next (unseen [] l) := by
  intro before v after h c member
  have found := unseen_closed_from [] l
    (fun before v after split c member => .inl (closed before v after split c member))
    before v after h c member
  simpa using found

/-- On an acyclic graph a walk with enough fuel ends in its own vertex and
lists every vertex after its successors. -/
theorem visit_closed (acyclic : Acyclic next nodes) (descent : Descent next nodes fuel above v) :
    Closed next (visit next fuel above v) ∧ v ∈ visit next fuel above v ∧
      ∀ u ∈ visit next fuel above v, u ∈ nodes := by
  induction fuel generalizing above v with
  | zero => exact absurd descent.positive (by simp)
  | succ fuel ih =>
    have child (c : N) (edge : c ∈ next v) := descent.step acyclic edge
    have enter (c : N) (edge : c ∈ next v) :
        (if c ∈ v :: above then [] else visit next fuel (v :: above) c) =
          visit next fuel (v :: above) c := if_neg (child c edge).1
    simp only [visit]
    refine ⟨closed_snoc (closed_flatMap ?_) ?_, by simp, ?_⟩
    · intro c edge
      rw [enter c edge]
      exact (ih (child c edge).2).1
    · intro c edge
      refine List.mem_flatMap.mpr ⟨c, edge, ?_⟩
      rw [enter c edge]
      exact (ih (child c edge).2).2.1
    · intro u member
      rcases List.mem_append.mp member with below | self
      · obtain ⟨c, edge, found⟩ := List.mem_flatMap.mp below
        rw [enter c edge] at found
        exact (ih (child c edge).2).2.2 u found
      · obtain rfl := List.mem_singleton.mp self
        exact descent.inside u (by simp)

/-- First occurrences of the walks from every vertex, in any order of the
vertices, are a complete bottom-up order. -/
theorem bottomUp_order (nodes roots : List N) (acyclic : Acyclic next nodes)
    (closed : ∀ u ∈ nodes, ∀ c ∈ next u, c ∈ nodes) (enough : nodes.length ≤ fuel)
    (complete : ∀ v, v ∈ roots ↔ v ∈ nodes) :
    let order := unseen [] (roots.flatMap (visit next fuel []))
    order.Nodup ∧ (∀ v, v ∈ order ↔ v ∈ nodes) ∧ Closed next order := by
  have walk (v : N) (member : v ∈ roots) :=
    visit_closed acyclic (.root nodes closed ((complete v).mp member) enough)
  refine ⟨unseen_nodup _ _, ?_, unseen_closed (closed_flatMap fun v member => (walk v member).1)⟩
  intro v
  simp only [mem_unseen, List.not_mem_nil, not_false_eq_true, and_true, List.mem_flatMap]
  constructor
  · rintro ⟨root, member, found⟩
    exact (walk root member).2.2 v found
  · intro member
    have listed := (complete v).mpr member
    exact ⟨v, listed, (walk v listed).2.1⟩

end Walk
end Graph
