import Mathlib.Data.List.Basic

/-! Programs that change a state and may stop with an error. The state an error
leaves behind is kept, so that what a failing run has done is still visible.
`Always` is about every run; what a run that succeeds has done is read off its parts. -/
namespace Exec

def Program (ε σ α : Type) : Type := σ → Except ε α × σ

namespace Program
variable {ε σ α β : Type}

def ret (a : α) : Program ε σ α := fun s => (.ok a, s)

def andThen (m : Program ε σ α) (f : α → Program ε σ β) : Program ε σ β := fun s =>
  match m s with
  | (.ok a, t) => f a t
  | (.error e, t) => (.error e, t)

instance : Monad (Program ε σ) where
  pure := ret
  bind := andThen

def fail (e : ε) : Program ε σ α := fun s => (.error e, s)

def read : Program ε σ σ := fun s => (.ok s, s)

def update (f : σ → σ) : Program ε σ Unit := fun s => (.ok (), f s)

/-- Run only under a condition. -/
def onlyIf (condition : Bool) (m : Program ε σ Unit) : Program ε σ Unit :=
  if condition then m else ret ()

/-- Run the body for every element, up to the first error. -/
def forEach (xs : List α) (body : α → Program ε σ Unit) : Program ε σ Unit :=
  match xs with
  | [] => ret ()
  | x :: rest => andThen (body x) fun _ => forEach rest body

/-- Run the body for every element and add up what it returns. -/
def sumOver (xs : List α) (body : α → Program ε σ Int) : Program ε σ Int :=
  match xs with
  | [] => ret 0
  | x :: rest => andThen (body x) fun a => andThen (sumOver rest body) fun b => ret (a + b)

/-- Run the first; when it fails, undo and fail all the same. -/
def orUndo (m : Program ε σ α) (undo : σ → σ) : Program ε σ α := fun s =>
  match m s with
  | (.ok a, t) => (.ok a, t)
  | (.error e, t) => (.error e, undo t)

/-- Every run relates the state it starts in to the one it ends in. -/
def Always (rel : σ → σ → Prop) (m : Program ε σ α) : Prop := ∀ s, rel s (m s).2

section Always
variable {rel : σ → σ → Prop}

theorem Always.apply {m : Program ε σ α} (always : Always rel m) (ran : m s = (result, t)) : rel s t := by
  have here := always s
  rwa [ran] at here

theorem Always.pure (refl : ∀ s, rel s s) (a : α) : Always rel (Pure.pure a : Program ε σ α) :=
  fun s => refl s

theorem Always.fail (refl : ∀ s, rel s s) (e : ε) : Always rel (Program.fail e : Program ε σ α) :=
  fun s => refl s

theorem Always.read (refl : ∀ s, rel s s) : Always rel (Program.read : Program ε σ σ) :=
  fun s => refl s

/-- The second part need only be good for values the first can return. -/
theorem Always.bindOf {m : Program ε σ α} {f : α → Program ε σ β}
    (trans : ∀ s t u, rel s t → rel t u → rel s u) (first : Always rel m)
    (second : ∀ s a t, m s = (.ok a, t) → Always rel (f a)) : Always rel (m >>= f) := by
  intro s
  have here := first s
  change rel s (andThen m f s).2
  unfold andThen
  cases out : m s with
  | mk result t =>
    rw [out] at here
    cases result with
    | ok a => exact trans s t _ here (second s a t out t)
    | error e => exact here

theorem Always.bind {m : Program ε σ α} {f : α → Program ε σ β}
    (trans : ∀ s t u, rel s t → rel t u → rel s u) (first : Always rel m)
    (second : ∀ a, Always rel (f a)) : Always rel (m >>= f) :=
  .bindOf trans first fun _ a _ _ => second a

theorem Always.forEach {body : α → Program ε σ Unit} (refl : ∀ s, rel s s)
    (trans : ∀ s t u, rel s t → rel t u → rel s u) (xs : List α)
    (each : ∀ x ∈ xs, Always rel (body x)) : Always rel (Program.forEach xs body) := by
  induction xs with
  | nil => exact fun s => refl s
  | cons x rest ih =>
    refine Always.bind trans (each x List.mem_cons_self) fun _ => ?_
    exact ih fun y member => each y (List.mem_cons_of_mem _ member)

theorem Always.ite {p : Prop} [Decidable p] {m n : Program ε σ α} (yes : p → Always rel m)
    (no : ¬p → Always rel n) : Always rel (if p then m else n) := by
  split
  · exact yes ‹_›
  · exact no ‹_›

theorem Always.onlyIf {m : Program ε σ Unit} (refl : ∀ s, rel s s)
    (runs : condition = true → Always rel m) : Always rel (Program.onlyIf condition m) :=
  .ite runs fun _ => .pure refl ()

end Always

/-- A sequence succeeds when both of its parts do. -/
theorem bind_ok {m : Program ε σ α} {f : α → Program ε σ β} :
    (m >>= f) s = (.ok b, u) ↔ ∃ a t, m s = (.ok a, t) ∧ f a t = (.ok b, u) := by
  change andThen m f s = _ ↔ _
  unfold andThen
  cases out : m s with
  | mk result t =>
    cases result with
    | ok a => simp
    | error e => simp

/-- What follows a part that has succeeded. -/
theorem bind_eq {m : Program ε σ α} (first : m s = (.ok a, t)) (f : α → Program ε σ β) :
    (m >>= f) s = f a t := by
  change andThen m f s = _
  simp [andThen, first]

/-- What has failed is the end. -/
theorem bind_error {m : Program ε σ α} (first : m s = (.error e, t)) (f : α → Program ε σ β) :
    (m >>= f) s = (.error e, t) := by
  change andThen m f s = _
  simp [andThen, first]

/-- What the state after a sequence satisfies: the first part may have been the
end. -/
theorem bind_state {P : σ → Prop} {m : Program ε σ α} {f : α → Program ε σ β} (first : P (m s).2)
    (second : ∀ a t, m s = (.ok a, t) → P (f a t).2) : P ((m >>= f) s).2 := by
  change P (andThen m f s).2
  unfold andThen
  cases out : m s with
  | mk result t =>
    cases result with
    | ok a => exact second a t out
    | error e =>
      rw [out] at first
      exact first

/-- Only the outcome of the first part matters to what follows. -/
theorem bind_from {m n : Program ε σ α} (same : m s = n t) (f : α → Program ε σ β) :
    (m >>= f) s = (n >>= f) t := by
  change andThen m f s = andThen n f t
  simp [andThen, same]

theorem pure_ok : (pure a : Program ε σ α) s = (.ok b, u) ↔ a = b ∧ s = u := by
  change (Except.ok a, s) = (Except.ok b, u) ↔ _
  simp

theorem fail_ok : ¬(fail e : Program ε σ α) s = (.ok b, u) := by simp [fail]

theorem read_ok : (read : Program ε σ σ) s = (.ok b, u) ↔ s = b ∧ s = u := by simp [read]

theorem sumOver_cons (body : α → Program ε σ Int) (first : body x s = (.ok a, t))
    (others : sumOver rest body t = (.ok b, u)) : sumOver (x :: rest) body s = (.ok (a + b), u) := by
  simp [sumOver, andThen, first, others, ret]

theorem sumOver_error (body : α → Program ε σ Int) (first : body x s = (.error e, t)) (rest : List α) :
    sumOver (x :: rest) body s = (.error e, t) := by
  simp [sumOver, andThen, first]

theorem forEach_map (f : β → α) (body : α → Program ε σ Unit) (xs : List β) :
    forEach (xs.map f) body = forEach xs fun x => body (f x) := by
  induction xs with
  | nil => rfl
  | cons x rest ih => rw [List.map_cons, forEach, forEach, ih]

theorem sumOver_map (f : β → α) (body : α → Program ε σ Int) (xs : List β) :
    sumOver (xs.map f) body = sumOver xs fun x => body (f x) := by
  induction xs with
  | nil => rfl
  | cons x rest ih => rw [List.map_cons, sumOver, sumOver, ih]

theorem forEach_append {body : α → Program ε σ Unit} (xs ys : List α) (s : σ) :
    forEach (xs ++ ys) body s = (do forEach xs body; forEach ys body : Program ε σ Unit) s := by
  induction xs generalizing s with
  | nil => rfl
  | cons x rest ih =>
    change andThen (body x) _ s = andThen (andThen (body x) _) _ s
    unfold andThen
    cases out : body x s with
    | mk result t =>
      cases result with
      | ok a => exact ih t
      | error e => rfl

end Program
end Exec
