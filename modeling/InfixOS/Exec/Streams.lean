import Mathlib.Data.List.Pairwise
import Mathlib.Logic.Function.Basic

/-! Commands issued to buffered streams and directly. What is written to a stream
takes effect when the stream is flushed, which may be at any time and is at the latest
when it is closed; a direct command takes effect at once. -/
namespace Exec.Streams
variable {P C : Type} [DecidableEq P]

inductive Event (P C : Type) where
  | put (stream : P) (command : C)
  | direct (command : C)
  | close (stream : P)
  /-- The process dies: what no stream has passed on is lost. -/
  | crash

abbrev Buffers (P C : Type) := P → List C

def Buffers.push (b : Buffers P C) (p : P) (c : C) : Buffers P C := Function.update b p (b p ++ [c])

/-- The commands that take effect, in the order in which they do. -/
inductive Effects : List (Event P C) → Buffers P C → List C → Prop where
  | done : Effects [] (fun _ => []) []
  | flush (next : Effects events (Function.update b p rest) out) (front : b p = c :: rest) : Effects events b (c :: out)
  | put (next : Effects events (b.push p c) out) : Effects (.put p c :: events) b out
  | direct (next : Effects events b out) : Effects (.direct c :: events) b (c :: out)
  | close (next : Effects events b out) (empty : b p = []) : Effects (.close p :: events) b out
  | crash : Effects (.crash :: events) b []

/-- The commands in program order. -/
def issued : List (Event P C) → List C
  | [] => []
  | .put _ c :: events | .direct c :: events => c :: issued events
  | .close _ :: events => issued events
  | .crash :: _ => []

omit [DecidableEq P] in
theorem issued_puts (p : P) (cs : List C) (rest : List (Event P C)) :
    issued (cs.map (Event.put p) ++ rest) = cs ++ issued rest := by
  induction cs with
  | nil => rfl
  | cons c cs ih => rw [List.map_cons, List.cons_append, issued, ih, List.cons_append]

omit [DecidableEq P] in
theorem issued_directs (cs : List C) (rest : List (Event P C)) :
    issued (cs.map Event.direct ++ rest) = cs ++ issued rest := by
  induction cs with
  | nil => rfl
  | cons c cs ih => rw [List.map_cons, List.cons_append, issued, ih, List.cons_append]

theorem Effects.mem {b : Buffers P C} (effects : Effects events b out) (member : d ∈ out) :
    (∃ p, d ∈ b p) ∨ d ∈ issued events := by
  induction effects with
  | done => cases member
  | crash => cases member
  | @flush _ b p rest _ c next front ih =>
    rcases List.mem_cons.mp member with rfl | member
    · exact .inl ⟨p, by simp [front]⟩
    · refine (ih member).imp_left ?_
      rintro ⟨q, waiting⟩
      by_cases same : q = p
      · subst same
        rw [Function.update_self] at waiting
        exact ⟨q, by simp [front, waiting]⟩
      · rw [Function.update_of_ne same] at waiting
        exact ⟨q, waiting⟩
  | @put _ b p c _ next ih =>
    rcases ih member with ⟨q, waiting⟩ | later
    · by_cases same : q = p
      · subst same
        rw [Buffers.push, Function.update_self, List.mem_append, List.mem_singleton] at waiting
        rcases waiting with waiting | rfl
        · exact .inl ⟨q, waiting⟩
        · exact .inr List.mem_cons_self
      · rw [Buffers.push, Function.update_of_ne same] at waiting
        exact .inl ⟨q, waiting⟩
    · exact .inr (List.mem_cons_of_mem _ later)
  | direct next ih =>
    rcases List.mem_cons.mp member with rfl | member
    · exact .inr List.mem_cons_self
    · exact (ih member).imp_right (List.mem_cons_of_mem _)
  | close next empty ih => exact ih member

section Ranks
variable (rank : C → Nat)

/-- No command is issued while one of a lower rank may still wait in another stream. -/
def Quiet : List (Event P C) → Buffers P C → Prop
  | [], _ => True
  | .put p c :: events, b => (∀ q, q ≠ p → ∀ d ∈ b q, rank c ≤ rank d) ∧ Quiet events (b.push p c)
  | .direct c :: events, b => (∀ q, ∀ d ∈ b q, rank c ≤ rank d) ∧ Quiet events b
  | .close p :: events, b => Quiet events (Function.update b p [])
  | .crash :: _, _ => True

/-- Commands for one stream: what matters waits in the others. -/
theorem quiet_puts (p : P) (cs : List C) (rest : List (Event P C)) (b : Buffers P C) :
    Quiet rank (cs.map (Event.put p) ++ rest) b ↔
      (∀ c ∈ cs, ∀ q, q ≠ p → ∀ d ∈ b q, rank c ≤ rank d) ∧ Quiet rank rest (Function.update b p (b p ++ cs)) := by
  induction cs generalizing b with
  | nil => simp
  | cons c cs ih =>
    have others : ∀ q, q ≠ p → b.push p c q = b q := fun q other => Function.update_of_ne other ..
    have buffers : Function.update (b.push p c) p (b.push p c p ++ cs) = Function.update b p (b p ++ c :: cs) := by
      rw [Buffers.push, Function.update_self, Function.update_idem, List.append_assoc]
      rfl
    rw [List.map_cons, List.cons_append, Quiet, ih, buffers, List.forall_mem_cons, and_assoc]
    refine and_congr_right fun _ => and_congr_left fun _ => ?_
    constructor
    · intro quiet d member q other x waiting
      exact quiet d member q other x (by rwa [others q other])
    · intro quiet d member q other x waiting
      rw [others q other] at waiting
      exact quiet d member q other x waiting

theorem quiet_directs (cs : List C) (rest : List (Event P C)) (b : Buffers P C) :
    Quiet rank (cs.map Event.direct ++ rest) b ↔ (∀ c ∈ cs, ∀ q, ∀ d ∈ b q, rank c ≤ rank d) ∧ Quiet rank rest b := by
  induction cs with
  | nil => simp
  | cons c cs ih => rw [List.map_cons, List.cons_append, Quiet, ih, List.forall_mem_cons, and_assoc]

/-- What may wait is in order, also with what is issued later, and nothing in one
stream outranks anything in another. -/
structure Settled (events : List (Event P C)) (b : Buffers P C) : Prop where
  later : (issued events).Pairwise fun c d => rank c ≤ rank d
  program : ∀ p, (b p ++ issued events).Pairwise fun c d => rank c ≤ rank d
  across : ∀ p q, p ≠ q → ∀ c ∈ b p, ∀ d ∈ b q, rank c ≤ rank d

variable {rank}

theorem Settled.put {b : Buffers P C} (settled : Settled rank (.put p c :: events) b)
    (quiet : ∀ q, q ≠ p → ∀ d ∈ b q, rank c ≤ rank d) : Settled rank events (b.push p c) := by
  have waiting : ∀ q, ∀ d ∈ b q, rank d ≤ rank c := fun q d member =>
    (List.pairwise_append.mp (settled.program q)).2.2 d member c List.mem_cons_self
  constructor
  · exact settled.later.of_cons
  · intro q
    by_cases same : q = p
    · subst same
      rw [Buffers.push, Function.update_self, List.append_assoc]
      exact settled.program q
    · rw [Buffers.push, Function.update_of_ne same]
      exact (settled.program q).sublist (by simp [issued])
  · intro q r other x first y second
    by_cases same : q = p
    · subst same
      rw [Buffers.push, Function.update_of_ne (Ne.symm other)] at second
      rw [Buffers.push, Function.update_self, List.mem_append, List.mem_singleton] at first
      rcases first with first | rfl
      · exact settled.across q r other x first y second
      · exact quiet r (Ne.symm other) y second
    · rw [Buffers.push, Function.update_of_ne same] at first
      by_cases same' : r = p
      · subst same'
        rw [Buffers.push, Function.update_self, List.mem_append, List.mem_singleton] at second
        rcases second with second | rfl
        · exact settled.across q r other x first y second
        · exact waiting q x first
      · rw [Buffers.push, Function.update_of_ne same'] at second
        exact settled.across q r other x first y second

omit [DecidableEq P] in
theorem Settled.direct {b : Buffers P C} (settled : Settled rank (.direct c :: events) b) : Settled rank events b :=
  ⟨settled.later.of_cons, fun p => (settled.program p).sublist (by simp [issued]), settled.across⟩

theorem Settled.close {b : Buffers P C} (settled : Settled rank (.close p :: events) b) :
    Settled rank events (Function.update b p []) := by
  have fewer : ∀ q, (Function.update b p [] q).Sublist (b q) := by
    intro q
    by_cases same : q = p
    · subst same
      simp
    · simp [Function.update_of_ne same]
  constructor
  · exact settled.later
  · intro q
    exact (settled.program q).sublist ((fewer q).append (List.Sublist.refl _))
  · intro q r other c first d second
    exact settled.across q r other c ((fewer q).subset first) d ((fewer r).subset second)

/-- Whatever is flushed when, a quiet program takes effect in order. The buffers `b`
hold all that may wait, `w` what does. -/
theorem Effects.ordered {w b : Buffers P C} (effects : Effects events w out) (fewer : ∀ p, (w p).Sublist (b p))
    (quiet : Quiet rank events b) (settled : Settled rank events b) :
    out.Pairwise fun c d => rank c ≤ rank d := by
  induction effects generalizing b with
  | done => exact .nil
  | crash => exact .nil
  | @flush events w p rest out c next front ih =>
    have less : ∀ q, (Function.update w p rest q).Sublist (w q) := by
      intro q
      by_cases same : q = p
      · subst same
        rw [Function.update_self, front]
        exact List.sublist_cons_self c rest
      · simp [Function.update_of_ne same]
    refine .cons ?_ (ih (fun q => (less q).trans (fewer q)) quiet settled)
    intro d member
    have first : c ∈ b p := (fewer p).subset (by simp [front])
    rcases next.mem member with ⟨q, waiting⟩ | later
    · by_cases same : q = p
      · subst same
        rw [Function.update_self] at waiting
        have order := (List.pairwise_append.mp (settled.program q)).1.sublist (fewer q)
        rw [front] at order
        exact List.rel_of_pairwise_cons order waiting
      · rw [Function.update_of_ne same] at waiting
        exact settled.across p q (Ne.symm same) c first d ((fewer q).subset waiting)
    · exact (List.pairwise_append.mp (settled.program p)).2.2 c first d later
  | @put events w p c out next ih =>
    refine ih ?_ quiet.2 (settled.put quiet.1)
    intro q
    by_cases same : q = p
    · subst same
      rw [Buffers.push, Buffers.push, Function.update_self, Function.update_self]
      exact (fewer q).append (List.Sublist.refl _)
    · rw [Buffers.push, Buffers.push, Function.update_of_ne same, Function.update_of_ne same]
      exact fewer q
  | @direct events w out c next ih =>
    refine .cons ?_ (ih fewer quiet.2 settled.direct)
    intro d member
    rcases next.mem member with ⟨q, waiting⟩ | later
    · exact quiet.1 q d ((fewer q).subset waiting)
    · exact List.rel_of_pairwise_cons settled.later later
  | @close events w out p next empty ih =>
    refine ih ?_ quiet settled.close
    intro q
    by_cases same : q = p
    · subst same
      simp [empty]
    · rw [Function.update_of_ne same]
      exact fewer q

/-- A stream may be flushed at any time. -/
theorem Effects.flushed {b : Buffers P C} (next : Effects events (Function.update b p []) out) :
    Effects events b (b p ++ out) := by
  generalize waiting : b p = cs
  induction cs generalizing b with
  | nil =>
    have same : Function.update b p [] = b := by rw [← waiting, Function.update_eq_self]
    rwa [same] at next
  | cons c rest ih =>
    have later : Effects events (Function.update b p rest) (rest ++ out) := by
      apply ih _ (Function.update_self ..)
      rwa [Function.update_idem]
    exact .flush later waiting

/-- With finitely many streams a program can always be run to its end. -/
theorem exists_effects {streams : List P} (all : ∀ p, p ∈ streams) (events : List (Event P C)) (b : Buffers P C) :
    ∃ out, Effects events b out := by
  induction events generalizing b with
  | nil =>
    have some : ∀ l : List P, (∀ p, p ∉ l → b p = []) → ∃ out, Effects [] b out := by
      intro l
      induction l generalizing b with
      | nil =>
        intro rest
        have empty : b = fun _ => [] := funext fun p => rest p (by simp)
        exact ⟨[], empty ▸ .done⟩
      | cons p l ih =>
        intro rest
        obtain ⟨out, next⟩ := ih (Function.update b p []) fun q isnt => by
          by_cases same : q = p
          · subst same
            simp
          · rw [Function.update_of_ne same]
            exact rest q (by simp [same, isnt])
        exact ⟨_, next.flushed⟩
    exact some streams fun p isnt => absurd (all p) isnt
  | cons e events ih =>
    cases e with
    | put p c =>
      obtain ⟨out, next⟩ := ih (b.push p c)
      exact ⟨out, .put next⟩
    | direct c =>
      obtain ⟨out, next⟩ := ih b
      exact ⟨c :: out, .direct next⟩
    | close p =>
      obtain ⟨out, next⟩ := ih (Function.update b p [])
      exact ⟨b p ++ out, (Effects.close next (Function.update_self ..)).flushed⟩
    | crash => exact ⟨[], .crash⟩

/-- A stream that is flushed at the wrong time shows what is not quiet. -/
theorem quiet_of_ordered {streams : List P} (all : ∀ p, p ∈ streams) {events : List (Event P C)} {b : Buffers P C}
    (ordered : ∀ out, Effects events b out → out.Pairwise fun c d => rank c ≤ rank d) : Quiet rank events b := by
  induction events generalizing b with
  | nil => trivial
  | cons e events ih =>
    cases e with
    | put p c =>
      constructor
      · intro q other d waiting
        obtain ⟨out, next⟩ := exists_effects all events (Function.update (Function.update (b.push p c) p []) q [])
        have order := ordered _ (.put next.flushed.flushed)
        rw [Function.update_of_ne other] at order
        have push : b.push p c p = b p ++ [c] := Function.update_self ..
        have still : b.push p c q = b q := Function.update_of_ne other ..
        rw [push, still, List.append_assoc, List.singleton_append, List.pairwise_append] at order
        exact List.rel_of_pairwise_cons order.2.1 (List.mem_append_left _ waiting)
      · exact ih fun out next => ordered out (.put next)
    | direct c =>
      constructor
      · intro q d waiting
        obtain ⟨out, next⟩ := exists_effects all events (Function.update b q [])
        exact List.rel_of_pairwise_cons (ordered _ (.direct next.flushed)) (List.mem_append_left _ waiting)
      · exact ih fun out next => (ordered _ (.direct next)).of_cons
    | close p =>
      refine ih fun out next => ?_
      have order := ordered _ (Effects.close next (Function.update_self ..)).flushed
      exact (List.pairwise_append.mp order).2.1
    | crash => trivial

/-- A program in the order of the ranks takes effect in that order, whenever the
streams are flushed, if and only if it is quiet. -/
theorem ordered_iff_quiet {streams : List P} (all : ∀ p, p ∈ streams) {events : List (Event P C)}
    (program : (issued events).Pairwise fun c d => rank c ≤ rank d) :
    (∀ out, Effects events (fun _ => []) out → out.Pairwise fun c d => rank c ≤ rank d) ↔
      Quiet rank events fun _ => [] := by
  constructor
  · exact quiet_of_ordered all
  · intro quiet out effects
    exact effects.ordered (fun _ => List.Sublist.refl _) quiet ⟨program, fun _ => program, by simp⟩

end Ranks
end Exec.Streams
