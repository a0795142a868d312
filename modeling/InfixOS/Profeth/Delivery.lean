import InfixOS.Profeth.Callbacks

/-! The rounds of the main loop. One pass of `app_handle_event_ar` answers each relation for
which the event is set, while callbacks set events again behind and before it. -/
namespace Profeth
open Slots

variable {A : Type} {app after : App A} {first rest live later pad : List Ar}
  {trace new : List (Occurrence A)} {arep : BitVec 32} {event : Event} {handler : Handler A}

/-- No event is set without the main task being woken for it. -/
def Awake (live : List Ar) (flags : BitVec 32) : Prop :=
  ∀ a ∈ live, ∀ event, Has a.events event → Has flags event

/-- How often an event of a relation is answered. -/
def answersTo (trace : List (Occurrence A)) (arep : BitVec 32) (event : Event) : Nat :=
  (trace.filterMap Occurrence.answers).count (arep, event)

theorem answersTo_append (trace new : List (Occurrence A)) :
    answersTo (trace ++ new) arep event = answersTo trace arep event + answersTo new arep event := by
  simp [answersTo]

theorem answersTo_callbacks (callbacks : List (Callback A)) :
    answersTo (callbacks.map .callback) arep event = 0 := by
  simp [answersTo, Occurrence.answers, Function.comp_def, List.filterMap_map]

theorem answersTo_call (call : Call A) :
    answersTo [.call call] arep event = if call.answers = some (arep, event) then 1 else 0 := by
  unfold answersTo
  cases found : call.answers with
  | none => simp [Occurrence.answers, found]
  | some pair => simp [Occurrence.answers, found, List.count_singleton]

theorem answersTo_eq_zero (other : ∀ o ∈ new, o.answers ≠ some (arep, event)) :
    answersTo new arep event = 0 := by
  refine List.count_eq_zero.mpr fun member => ?_
  obtain ⟨o, found, answers⟩ := List.mem_filterMap.mp member
  exact other o found answers

/-- What a stretch of a round that answers `events` does to the relations in use. -/
structure Served (events : List Event) (app after : App A) (live later : List Ar)
    (new : List (Occurrence A)) : Prop where
  consistent : Consistent after later
  trace : after.trace = app.trace ++ new
  length : after.ar.length = app.ar.length
  kept : ∀ a ∈ live, ∃ b ∈ later, b.arep = a.arep ∧
    ∀ event ∉ events, Has a.events event → Has b.events event
  fresh : ∀ b ∈ later, ∀ event, Has b.events event →
    (∃ a ∈ live, a.arep = b.arep ∧ Has a.events event) ∨
      ∃ o ∈ new, o.indicates = some (b.arep, event)
  only : ∀ o ∈ new, ∀ arep event, o.answers = some (arep, event) → event ∈ events

theorem Served.refl (consistent : Consistent app live) (events : List Event) :
    Served events app app live live [] :=
  ⟨consistent, by simp, rfl, fun a member => ⟨a, member, rfl, fun _ _ => id⟩,
    fun b member _ set => .inl ⟨b, member, rfl, set⟩, by simp⟩

theorem Served.trans {mid : App A} {between : List Ar} {more : List (Occurrence A)} {xs ys : List Event}
    (one : Served xs app mid live between new) (two : Served ys mid after between later more) :
    Served (xs ++ ys) app after live later (new ++ more) := by
  refine ⟨two.consistent, by rw [two.trace, one.trace, List.append_assoc],
    two.length.trans one.length, ?_, ?_, ?_⟩
  · intro a member
    obtain ⟨b, member, same, keeps⟩ := one.kept a member
    obtain ⟨c, member, same', keeps'⟩ := two.kept b member
    refine ⟨c, member, same'.trans same, fun event other set => ?_⟩
    rw [List.mem_append, not_or] at other
    exact keeps' event other.2 (keeps event other.1 set)
  · intro c member event set
    rcases two.fresh c member event set with ⟨b, member, same, set⟩ | ⟨o, member, indicates⟩
    · rcases one.fresh b member event set with ⟨a, member, same', set⟩ | ⟨o, member, indicates⟩
      · exact .inl ⟨a, member, same'.trans same, set⟩
      · exact .inr ⟨o, List.mem_append_left _ member, same ▸ indicates⟩
    · exact .inr ⟨o, List.mem_append_right _ member, indicates⟩
  · intro o member arep event answers
    rcases List.mem_append.mp member with early | late
    · exact List.mem_append_left _ (one.only o early arep event answers)
    · exact List.mem_append_right _ (two.only o late arep event answers)

theorem Served.mono {xs ys : List Event} (served : Served xs app after live later new) (within : xs ⊆ ys) :
    Served ys app after live later new := by
  refine ⟨served.consistent, served.trace, served.length, ?_, served.fresh,
    fun o member arep event answers => within (served.only o member arep event answers)⟩
  intro a member
  obtain ⟨b, member, same, keeps⟩ := served.kept a member
  exact ⟨b, member, same, fun event other => keeps event fun inside => other (within inside)⟩

/-- A handler that makes one call into the stack and keeps the relation. -/
structure Answers (event : Event) (handler : Handler A) (call : App A → BitVec 32 → Call A) : Prop where
  calls : ∀ app arep, handler app arep = (callStack app (call app arep)).map fun app => (app, false)
  answers : ∀ app arep, (call app arep).answers = some (arep, event)
  acks : ∀ app arep other alarmArg, call app arep = .alarmSendAck other alarmArg → alarmArg = app.alarmArg

/-- The entry with the event cleared. -/
def Ar.cleared (event : Event) (a : Ar) : Ar := { a with events := a.events &&& ~~~event.bit }

@[simp] theorem cleared_arep (a : Ar) : (a.cleared event).arep = a.arep := rfl

theorem cleared_has (a : Ar) (other : Event) :
    Has (a.cleared event).events other ↔ Has a.events other ∧ event ≠ other := has_clear

theorem appArEventClr_of_not (off : ¬ Has a.events event) :
    appArEventClr (first ++ a :: rest) first.length event.bit = (first ++ a :: rest, false) := by
  rw [appArEventClr, entryAt_append]
  exact if_neg off

theorem appArEventClr_of_has (on : Has a.events event) :
    appArEventClr (first ++ a :: rest) first.length event.bit =
      (first ++ a.cleared event :: rest, true) := by
  rw [appArEventClr, entryAt_append, modify_append]
  exact if_pos on

/-- One entry of the pass, for which the event is set. -/
theorem Consistent.cleared (consistent : Consistent app (first ++ a :: rest)) (event : Event)
    (unused : ∀ b ∈ pad, b.unused = true) :
    Consistent { app with ar := first ++ a.cleared event :: (rest ++ pad) }
        (first ++ a.cleared event :: rest) ∧
      ∀ b ∈ first ++ a.cleared event :: rest, b.arep = a.arep → ¬ Has b.events event := by
  have inUse := consistent.packed.inUse
  have distinct := consistent.distinct
  refine ⟨⟨⟨?_, pad, by simp, unused⟩, by simpa using distinct, ?_, consistent.ordered,
    consistent.named, consistent.alarm⟩, ?_⟩
  · simpa [or_imp, forall_and, Ar.unused] using inUse
  · intro b member other set
    rcases List.mem_append.mp member with before | member
    · exact consistent.asked b (List.mem_append_left _ before) other set
    · rcases List.mem_cons.mp member with rfl | behind
      · exact consistent.asked a (by simp) other ((cleared_has a other).mp set).1
      · exact consistent.asked b (by simp [behind]) other set
  · intro b member same
    simp only [List.map_append, List.map_cons, List.nodup_append, List.nodup_cons] at distinct
    rcases List.mem_append.mp member with before | member
    · exact absurd same (distinct.2.2 _ (List.mem_map_of_mem before) _ List.mem_cons_self)
    · rcases List.mem_cons.mp member with rfl | behind
      · exact fun set => ((cleared_has a event).mp set).2 rfl
      · exact absurd (same ▸ List.mem_map_of_mem behind) distinct.2.1.1

/-- The callbacks of a call into the stack. -/
theorem Grown.served {mid : App A} {f : Ar → Ar} {extra : List Ar} {callbacks : List (Callback A)}
    {call : Call A} (events : List Event) (grown : Grown callbacks app.mainEvents mid.mainEvents f extra)
    (consistent : Consistent mid (live.map f ++ extra))
    (trace : mid.trace = app.trace ++ .call call :: callbacks.map .callback)
    (length : mid.ar.length = app.ar.length)
    (answers : ∀ arep event, call.answers = some (arep, event) → event ∈ events) :
    Served events app mid live (live.map f ++ extra) (.call call :: callbacks.map .callback) := by
  have indicated {arep : BitVec 32} {event : Event} :
      (∃ cb ∈ callbacks, cb.indicates = some (arep, event)) →
        ∃ o ∈ Occurrence.call call :: callbacks.map .callback, o.indicates = some (arep, event) := by
    rintro ⟨cb, member, indicates⟩
    exact ⟨.callback cb, List.mem_cons_of_mem _ (List.mem_map_of_mem member), indicates⟩
  refine ⟨consistent, trace, length, ?_, ?_, ?_⟩
  · intro a member
    exact ⟨f a, List.mem_append_left _ (List.mem_map_of_mem member), grown.arep a,
      fun event _ => grown.keeps a event⟩
  · intro b member event set
    rcases List.mem_append.mp member with moved | added
    · obtain ⟨a, old, rfl⟩ := List.mem_map.mp moved
      rw [grown.arep]
      rcases grown.sets a event set with earlier | ⟨-, cause⟩
      · exact .inl ⟨a, old, rfl, earlier⟩
      · exact .inr (indicated cause)
    · exact .inr (indicated (grown.adds b added event set).2)
  · intro o member arep event found
    rcases List.mem_cons.mp member with rfl | callback
    · exact answers arep event found
    · obtain ⟨cb, -, rfl⟩ := List.mem_map.mp callback
      cases found

/-- The pass behind `first`. Entries behind it may have the event set without a wakeup. -/
structure Visiting (event : Event) (app : App A) (first rest : List Ar) : Prop where
  consistent : Consistent app (first ++ rest)
  behind : Awake first app.mainEvents
  ahead : ∀ a ∈ rest, ∀ other, Has a.events other → Has app.mainEvents other ∨ other = event

/-- What the pass makes of it. -/
structure Visited (event : Event) (app after : App A) (first rest later : List Ar)
    (new : List (Occurrence A)) : Prop where
  served : Served [event] app after (first ++ rest) later new
  awake : Awake later after.mainEvents
  once : ∀ a ∈ rest, Has a.events event → answersTo new a.arep event = 1
  never : ∀ a ∈ first, answersTo new a.arep event = 0

/-- An entry without the event is left as it is. -/
theorem Visited.skip {a : Ar} (off : ¬ Has a.events event)
    (visited : Visited event app after (first ++ [a]) rest later new) :
    Visited event app after first (a :: rest) later new := by
  obtain ⟨served, awake, once, never⟩ := visited
  rw [List.append_assoc, List.singleton_append] at served
  refine ⟨served, awake, ?_, fun b member => never b (List.mem_append_left _ member)⟩
  intro b member set
  rcases List.mem_cons.mp member with rfl | behind
  · exact absurd set off
  · exact once b behind set

/-- Clearing an entry of the pass. -/
theorem Consistent.clear_served {a : Ar} (event : Event) (consistent : Consistent app (first ++ a :: rest))
    (split : app.ar = first ++ a :: (rest ++ pad)) (unused : ∀ b ∈ pad, b.unused = true) :
    Served [event] app { app with ar := first ++ a.cleared event :: (rest ++ pad) }
      (first ++ a :: rest) (first ++ a.cleared event :: rest) [] := by
  refine ⟨(consistent.cleared event unused).1, by simp, by simp [split], ?_, ?_, by simp⟩
  · intro b member
    rcases List.mem_append.mp member with before | member
    · exact ⟨b, List.mem_append_left _ before, rfl, fun _ _ => id⟩
    · rcases List.mem_cons.mp member with rfl | behind
      · refine ⟨b.cleared event, by simp, rfl, fun other differs set => ?_⟩
        exact (cleared_has b other).mpr ⟨set, fun same => differs (same ▸ List.mem_singleton_self _)⟩
      · exact ⟨b, by simp [behind], rfl, fun _ _ => id⟩
  · intro b member other set
    refine .inl ?_
    rcases List.mem_append.mp member with before | member
    · exact ⟨b, List.mem_append_left _ before, rfl, set⟩
    · rcases List.mem_cons.mp member with rfl | behind
      · exact ⟨a, by simp, rfl, ((cleared_has a other).mp set).1⟩
      · exact ⟨b, by simp [behind], rfl, set⟩

/-- An entry with the event is answered by a call, whose callbacks may grow the table. -/
theorem Visited.answer {a : Ar} {mid : App A} {f : Ar → Ar} {extra : List Ar}
    {callbacks : List (Callback A)} {call : Call A}
    (distinct : ((first ++ a :: rest).map Ar.arep).Nodup) (answers : call.answers = some (a.arep, event))
    (arep : ∀ b, (f b).arep = b.arep) (keeps : ∀ b, Has b.events event → Has (f b).events event)
    (served : Served [event] app mid (first ++ a :: rest)
      ((first ++ a.cleared event :: rest).map f ++ extra) (.call call :: callbacks.map .callback))
    (visited : Visited event mid after (first.map f ++ [f (a.cleared event)]) (rest.map f ++ extra)
      later new) :
    Visited event app after first (a :: rest) later (.call call :: callbacks.map .callback ++ new) := by
  obtain ⟨served', awake, once, never⟩ := visited
  have counts (arep : BitVec 32) : answersTo (.call call :: callbacks.map .callback ++ new) arep event =
      (if a.arep = arep then 1 else 0) + answersTo new arep event := by
    rw [← List.singleton_append, answersTo_append, answersTo_append, answersTo_callbacks,
      answersTo_call, answers]
    simp
  simp only [List.map_append, List.map_cons, List.nodup_append, List.nodup_cons] at distinct
  obtain ⟨-, ⟨alone, -⟩, apart⟩ := distinct
  have same : first.map f ++ [f (a.cleared event)] ++ (rest.map f ++ extra) =
      (first ++ a.cleared event :: rest).map f ++ extra := by simp
  rw [same] at served'
  refine ⟨(served.trans served').mono (by simp), awake, ?_, ?_⟩
  · intro b member set
    rw [counts]
    rcases List.mem_cons.mp member with rfl | behind
    · have zero := never (f (b.cleared event)) (by simp)
      rw [arep, cleared_arep] at zero
      simp [zero]
    · have one := once (f b) (List.mem_append_left _ (List.mem_map_of_mem behind)) (keeps b set)
      rw [arep] at one
      have differs : a.arep ≠ b.arep := fun same => alone (same ▸ List.mem_map_of_mem behind)
      simp [one, differs]
  · intro b member
    rw [counts]
    have zero := never (f b) (by simp [List.mem_map_of_mem member])
    rw [arep] at zero
    have differs : a.arep ≠ b.arep := fun same =>
      apart b.arep (List.mem_map_of_mem member) a.arep List.mem_cons_self same.symm
    simp [zero, differs]

/-- Callbacks during the pass wake the main task for what they set. -/
theorem Visiting.grown {a : Ar} {mid : App A} {f : Ar → Ar} {extra : List Ar}
    {callbacks : List (Callback A)} (visiting : Visiting event app first (a :: rest))
    (grown : Grown callbacks app.mainEvents mid.mainEvents f extra)
    (consistent : Consistent mid ((first ++ a.cleared event :: rest).map f ++ extra)) :
    Visiting event mid (first.map f ++ [f (a.cleared event)]) (rest.map f ++ extra) := by
  refine ⟨by simpa using consistent, ?_, ?_⟩
  · intro b member other set
    rcases List.mem_append.mp member with moved | last
    · obtain ⟨c, old, rfl⟩ := List.mem_map.mp moved
      rcases grown.sets c other set with earlier | ⟨woken, -⟩
      · exact grown.flags other (visiting.behind c old other earlier)
      · exact woken
    · cases List.mem_singleton.mp last
      rcases grown.sets _ other set with earlier | ⟨woken, -⟩
      · obtain ⟨set, differs⟩ := (cleared_has a other).mp earlier
        rcases visiting.ahead a List.mem_cons_self other set with woken | same
        · exact grown.flags other woken
        · exact absurd same.symm differs
      · exact woken
  · intro b member other set
    rcases List.mem_append.mp member with moved | added
    · obtain ⟨c, old, rfl⟩ := List.mem_map.mp moved
      rcases grown.sets c other set with earlier | ⟨woken, -⟩
      · exact (visiting.ahead c (List.mem_cons_of_mem _ old) other earlier).imp_left (grown.flags other)
      · exact .inl woken
    · exact .inl (grown.adds b added other set).1

/-- By induction on the rounds left: each passes one entry of the table. -/
theorem appHandleEventArLoop_visited {call : App A → BitVec 32 → Call A}
    (handles : Answers event handler call) (n : Nat) :
    ∀ {app : App A} {first rest : List Ar}, app.ar.length < n + first.length →
      Visiting event app first rest →
      ∃ after later new, appHandleEventArLoop event handler n app (.before first.length false) =
        some after ∧ Visited event app after first rest later new := by
  induction n with
  | zero =>
    intro app first rest enough visiting
    obtain ⟨pad, split, -⟩ := visiting.consistent.packed.split
    simp only [split, List.length_append] at enough
    omega
  | succ n ih =>
    intro app first rest enough visiting
    obtain ⟨pad, split, unused⟩ := visiting.consistent.packed.split
    cases rest with
    | nil =>
      rw [List.append_nil] at split
      have ends := next_end first unused false
      simp only [Bool.false_eq_true, and_false, if_false, ← split] at ends
      refine ⟨app, first, [], by simp [appHandleEventArLoop, ends], ?_, visiting.behind, by simp,
        by simp [answersTo]⟩
      rw [List.append_nil]
      exact .refl (by simpa using visiting.consistent) _
    | cons a rest =>
      rw [List.append_assoc, List.cons_append] at split
      have inUse := visiting.consistent.packed.inUse a (by simp)
      have step := next_used first (rest ++ pad) inUse false
      have fuel : app.ar.length < n + (first.length + 1) := by omega
      simp only [appHandleEventArLoop, split, step]
      by_cases set : Has a.events event
      · obtain ⟨consistent, off⟩ := visiting.consistent.cleared event unused
        have asked := visiting.consistent.asked a (by simp) event set
        obtain ⟨callbacks, mid, f, extra, called, consistent, grown, trace, length⟩ :=
          callStack_after consistent
            (call { app with ar := first ++ a.cleared event :: (rest ++ pad) } a.arep) (by
              intro arep other found
              cases (handles.answers _ _).symm.trans found
              exact ⟨asked, off⟩) (handles.acks _ _)
        have visiting' := visiting.grown grown consistent
        have cleared := visiting.consistent.clear_served event split unused
        have served := cleared.trans (grown.served [event] consistent trace length
          (by simp [handles.answers]))
        obtain ⟨after, later, new, ran, visited⟩ := ih (by simpa [length, split] using fuel) visiting'
        refine ⟨after, later, _, ?_, visited.answer visiting.consistent.distinct
          (handles.answers _ _) grown.arep (fun b => grown.keeps b event) (served.mono (by simp))⟩
        rw [appArEventClr_of_has set]
        simp only [appArArep, entryAt_append, cleared_arep, handles.calls, called, Option.map_some,
          Option.bind_some, Bool.false_eq_true, if_false]
        simpa using ran
      · rw [appArEventClr_of_not set]
        have visiting' : Visiting event app (first ++ [a]) rest := by
          refine ⟨by simpa using visiting.consistent, ?_,
            fun b member => visiting.ahead b (List.mem_cons_of_mem _ member)⟩
          intro b member other on
          rcases List.mem_append.mp member with before | last
          · exact visiting.behind b before other on
          · cases List.mem_singleton.mp last
            rcases visiting.ahead a List.mem_cons_self other on with woken | rfl
            · exact woken
            · exact absurd on set
        obtain ⟨after, later, new, ran, visited⟩ := ih (by simpa using fuel) visiting'
        refine ⟨after, later, new, ?_, visited.skip set⟩
        simp only [← split]
        simpa using ran

/-- A pass of a handler that keeps the relations. -/
theorem appHandleEventAr_visited {call : App A → BitVec 32 → Call A}
    (handles : Answers event handler call) (consistent : Consistent app live)
    (awake : Awake live app.mainEvents) :
    ∃ after later new, appHandleEventAr app event handler = some after ∧
      Visited event app after [] live later new := by
  have visiting : Visiting event (osEventClr app event.bit) [] live := by
    refine ⟨consistent.beside _ _, by simp [Awake], ?_⟩
    intro a member other set
    by_cases same : other = event
    · exact .inr same
    · exact .inl (has_clear.mpr ⟨awake a member other set, Ne.symm same⟩)
  obtain ⟨after, later, new, ran, visited⟩ :=
    appHandleEventArLoop_visited handles (app.ar.length + 1) (Nat.lt_succ_self _) visiting
  obtain ⟨⟨kept, trace, length, keeps, fresh, only⟩, awake, once, never⟩ := visited
  exact ⟨after, later, new, ran, ⟨kept, trace, length, keeps, fresh, only⟩, awake, once, never⟩

theorem delete_current {a : Ar} (modified : Bool) :
    appArIteratorDeleteCurrent (first ++ a :: rest) (.before (first.length + 1) modified) =
      (first ++ a.release :: rest, .before (first.length + 1) true) := by
  simp [appArIteratorDeleteCurrent, Iterator.before]

/-- The pass over aborted relations leaves gaps until it ends. -/
theorem abort_loop (unused : ∀ b ∈ pad, b.unused = true) (rest : List Ar) :
    ∀ (n : Nat) (app : App A) (first : List Ar) (modified : Bool), rest.length < n →
      app.ar = first ++ (rest ++ pad) → (∀ b ∈ rest, b.unused = false) →
      (modified = false → ∀ b ∈ first, b.unused = false) →
      ∃ ar, appHandleEventArLoop .abort appArAbortHandler n app (.before first.length modified) =
        some { app with ar } ∧ ar.length = app.ar.length ∧
        Packed Ar.unused (used Ar.unused first ++ rest.filter fun a => ¬ Has a.events .abort) ar := by
  induction rest with
  | nil =>
    intro n app first modified enough split _ gapless
    obtain ⟨n, rfl⟩ := Nat.exists_eq_succ_of_ne_zero (Nat.ne_of_gt enough)
    have ends := next_end first unused modified
    rw [List.nil_append] at split
    have all : used Ar.unused app.ar = used Ar.unused first := by
      rw [split, used_append, used_of_free unused, List.append_nil]
    rw [← split] at ends
    simp only [appHandleEventArLoop, ends, List.filter_nil, List.append_nil, ← all]
    refine ⟨_, rfl, ?_, ?_⟩
    · split
      · exact compact_length _
      · rfl
    · split
      · exact compact_packed release_unused _
      case isFalse kept =>
        cases modified with
        | true => exact packed_of_length_le_one (by simpa using kept)
        | false =>
          rw [all, used_of_inUse (gapless rfl)]
          exact ⟨gapless rfl, pad, split, unused⟩
  | cons a rest ih =>
    intro n app first modified enough split inUse gapless
    obtain ⟨n, rfl⟩ := Nat.exists_eq_succ_of_ne_zero (Nat.ne_of_gt (Nat.zero_lt_of_lt enough))
    have here := inUse a List.mem_cons_self
    have behind := fun b member => inUse b (List.mem_cons_of_mem _ member)
    have step := next_used first (rest ++ pad) here modified
    rw [List.cons_append] at split
    simp only [appHandleEventArLoop, split, step]
    by_cases set : Has a.events .abort
    · obtain ⟨ar, ran, length, packed⟩ := ih n
        { app with ar := first ++ (a.cleared .abort).release :: (rest ++ pad) }
        (first ++ [(a.cleared .abort).release]) true (by simpa using enough) (by simp) behind (by simp)
      refine ⟨ar, ?_, by simpa [split] using length, ?_⟩
      · rw [appArEventClr_of_has set]
        simp only [appArAbortHandler, Option.bind_some, if_true, delete_current]
        simpa using ran
      · have gap : used Ar.unused [(a.cleared .abort).release] = [] :=
          used_of_free (by simp [release_unused])
        rw [used_append, gap, List.append_nil] at packed
        simpa [set] using packed
    · obtain ⟨ar, ran, length, packed⟩ := ih n app (first ++ [a]) modified
        (by simpa using enough) (by simp [split]) behind
        (by simpa [or_imp, forall_and, here] using gapless)
      refine ⟨ar, ?_, length.trans (by rw [split]), ?_⟩
      · rw [appArEventClr_of_not set]
        simp only [← split]
        simpa using ran
      · have stays : used Ar.unused [a] = [a] := used_of_inUse (by simpa using here)
        rw [used_append, stays] at packed
        simpa [set] using packed

end Profeth
