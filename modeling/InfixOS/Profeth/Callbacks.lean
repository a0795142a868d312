import InfixOS.Profeth.MainTask

/-! What callbacks do to the table and to the flags of the main task. Every event that is
set for a relation has been indicated since it was last answered. -/
namespace Profeth
open Slots

variable {A : Type} {app : App A} {live extra : List Ar} {trace : List (Occurrence A)}
  {arep : BitVec 32} {event : Event} {o : Occurrence A}

/-- The event was indicated for the relation, and has not been answered since. -/
def Asked (trace : List (Occurrence A)) (arep : BitVec 32) (event : Event) : Prop :=
  ∃ before asked after, trace = before ++ asked :: after ∧ asked.indicates = some (arep, event) ∧
    ∀ o ∈ after, o.answers ≠ some (arep, event)

/-- The argument of the alarm that was indicated last, for whichever relation. -/
def latestAlarm (trace : List (Occurrence A)) : Option A :=
  (trace.filterMap Occurrence.alarmArg).getLast?

/-- What is answered was asked before, and an alarm is acknowledged with the latest argument. -/
def Answered (before : List (Occurrence A)) (o : Occurrence A) : Prop :=
  ∀ arep event, o.answers = some (arep, event) → Asked before arep event ∧
    ∀ alarmArg, o = .call (.alarmSendAck arep alarmArg) → latestAlarm before = some alarmArg

def Ordered (trace : List (Occurrence A)) : Prop :=
  ∀ before o after, trace = before ++ o :: after → Answered before o

theorem Asked.concat (asked : Asked trace arep event) (other : o.answers ≠ some (arep, event)) :
    Asked (trace ++ [o]) arep event := by
  obtain ⟨before, first, after, rfl, indicates, silent⟩ := asked
  refine ⟨before, first, after ++ [o], by simp, indicates, ?_⟩
  intro p member
  rcases List.mem_append.mp member with inside | last
  · exact silent p inside
  · exact List.mem_singleton.mp last ▸ other

theorem asked_concat (indicates : o.indicates = some (arep, event)) : Asked (trace ++ [o]) arep event :=
  ⟨trace, o, [], rfl, indicates, by simp⟩

theorem latestAlarm_concat :
    latestAlarm (trace ++ [o]) = o.alarmArg.or (latestAlarm trace) := by
  cases found : o.alarmArg <;> simp [latestAlarm, found]

/-- An alarm that was indicated leaves an argument. -/
theorem Asked.latestAlarm (asked : Asked trace arep .alarm) : ∃ alarmArg, latestAlarm trace = some alarmArg := by
  obtain ⟨before, o, after, rfl, indicates, -⟩ := asked
  have given : ∃ alarmArg, o.alarmArg = some alarmArg := by
    cases o with
    | call c => cases indicates
    | callback cb =>
      cases cb with
      | alarmInd arep alarmArg => exact ⟨alarmArg, rfl⟩
      | stateInd arep event => cases event <;> cases indicates
      | smReleasedInd arep => cases indicates
      | timerTick => cases indicates
      | other => cases indicates
  obtain ⟨alarmArg, given⟩ := given
  refine Option.ne_none_iff_exists'.mp fun none => ?_
  rw [Profeth.latestAlarm, List.getLast?_eq_none_iff] at none
  simp [given] at none

theorem Ordered.concat (ordered : Ordered trace) (answered : Answered trace o) :
    Ordered (trace ++ [o]) := by
  intro before p after split
  rcases List.eq_nil_or_concat after with rfl | ⟨after, last, rfl⟩
  · obtain ⟨rfl, same⟩ := List.append_inj' split rfl
    cases same
    exact answered
  · rw [List.concat_eq_append, ← List.cons_append, ← List.append_assoc] at split
    exact ordered before p after (List.append_inj' split rfl).1

/-- What holds of the table at any moment at which the stack runs. -/
structure Consistent (app : App A) (live : List Ar) : Prop where
  packed : Packed Ar.unused live app.ar
  distinct : (live.map Ar.arep).Nodup
  asked : ∀ a ∈ live, ∀ event, Has a.events event → Asked app.trace a.arep event
  ordered : Ordered app.trace
  named : ∀ callbacks ∈ app.script, Named callbacks
  alarm : ∀ alarmArg, latestAlarm app.trace = some alarmArg → app.alarmArg = alarmArg

/-- The flags and the counter are not looked at. -/
theorem Consistent.beside (consistent : Consistent app live) (mainEvents processDataTickCounter : BitVec 32) :
    Consistent { app with mainEvents, processDataTickCounter } live :=
  ⟨consistent.packed, consistent.distinct, consistent.asked, consistent.ordered, consistent.named,
    consistent.alarm⟩

/-- Callbacks have set events, and woken the main task for each. -/
structure Grown (callbacks : List (Callback A)) (flags later : BitVec 32) (f : Ar → Ar)
    (extra : List Ar) : Prop where
  arep : ∀ a, (f a).arep = a.arep
  keeps : ∀ a event, Has a.events event → Has (f a).events event
  sets : ∀ a event, Has (f a).events event → Has a.events event ∨
    Has later event ∧ ∃ cb ∈ callbacks, cb.indicates = some (a.arep, event)
  adds : ∀ a ∈ extra, ∀ event, Has a.events event →
    Has later event ∧ ∃ cb ∈ callbacks, cb.indicates = some (a.arep, event)
  flags : ∀ event, Has flags event → Has later event

theorem Grown.refl {flags later : BitVec 32} (callbacks : List (Callback A))
    (wakes : ∀ event, Has flags event → Has later event) : Grown callbacks flags later id [] :=
  ⟨fun _ => rfl, fun _ _ => id, fun _ _ => .inl, by simp, wakes⟩

theorem Grown.trans {first second : List (Callback A)} {x y z : BitVec 32} {f g : Ar → Ar}
    {more : List Ar} (one : Grown first x y f extra) (two : Grown second y z g more) :
    Grown (first ++ second) x z (g ∘ f) (extra.map g ++ more) := by
  refine ⟨fun a => (two.arep _).trans (one.arep a),
    fun a event set => two.keeps _ event (one.keeps a event set), ?_, ?_,
    fun event set => two.flags event (one.flags event set)⟩
  · intro a event set
    rcases two.sets _ event set with earlier | ⟨woken, cb, member, indicates⟩
    · rcases one.sets a event earlier with before | ⟨woken, cb, member, indicates⟩
      · exact .inl before
      · exact .inr ⟨two.flags event woken, cb, List.mem_append_left _ member, indicates⟩
    · exact .inr ⟨woken, cb, List.mem_append_right _ member, one.arep a ▸ indicates⟩
  · intro a member event set
    rcases List.mem_append.mp member with moved | fresh
    · obtain ⟨b, old, rfl⟩ := List.mem_map.mp moved
      rw [two.arep]
      rcases two.sets b event set with earlier | ⟨woken, cb, member, indicates⟩
      · obtain ⟨woken, cb, member, indicates⟩ := one.adds b old event earlier
        exact ⟨two.flags event woken, cb, List.mem_append_left _ member, indicates⟩
      · exact ⟨woken, cb, List.mem_append_right _ member, indicates⟩
    · obtain ⟨woken, cb, member, indicates⟩ := two.adds a fresh event set
      exact ⟨woken, cb, List.mem_append_right _ member, indicates⟩

/-- A state that callbacks have led to. -/
structure After (callbacks : List (Callback A)) (app after : App A) (f : Ar → Ar) (extra : List Ar) :
    Prop where
  grown : Grown callbacks app.mainEvents after.mainEvents f extra
  trace : after.trace = app.trace ++ callbacks.map .callback
  length : after.ar.length = app.ar.length

theorem mark_has (a : Ar) (other : Event) :
    Has (a.mark arep event.bit).events other ↔ Has a.events other ∨ a.arep = arep ∧ event = other := by
  unfold Ar.mark
  split
  case isTrue same => simp [has_or, same]
  case isFalse differs => simp [differs]

/-- The relations in use after an event, as what is made of each and what is added. -/
theorem indicate_eq (live : List Ar) (arep : BitVec 32) (event : Event) (addArep room : Bool) :
    ∃ f extra, indicate live arep event.bit addArep room = live.map f ++ extra ∧
      (f = Ar.mark arep event.bit ∧ extra = [] ∨ f = id ∧ extra = [] ∨
        f = id ∧ extra = [⟨arep, event.bit⟩] ∧ arep ∉ live.map Ar.arep) := by
  unfold indicate
  split
  · exact ⟨_, [], (List.append_nil _).symm, .inl ⟨rfl, rfl⟩⟩
  case isFalse absent =>
    split
    · exact ⟨id, _, by rw [List.map_id], .inr (.inr ⟨rfl, rfl, absent⟩)⟩
    · exact ⟨id, [], by simp, .inr (.inl ⟨rfl, rfl⟩)⟩

/-- The callback has been traced already. -/
theorem appEventSet_consistent (consistent : Consistent app live) (asked : Asked app.trace arep event)
    (named : arep ≠ uint32Max) (addArep : Bool) :
    ∃ ar f extra, appEventSet app arep event addArep = some (osEventSet { app with ar } event.bit) ∧
      ar.length = app.ar.length ∧
      Consistent (osEventSet { app with ar } event.bit) (live.map f ++ extra) ∧
      (f = Ar.mark arep event.bit ∧ extra = [] ∨ f = id ∧ extra = [] ∨
        f = id ∧ extra = [⟨arep, event.bit⟩]) := by
  obtain ⟨ar, set, length, packed⟩ :=
    setEvent_indicate consistent.packed consistent.distinct named event.bit addArep
  obtain ⟨f, extra, same, kinds⟩ := indicate_eq live arep event addArep (live.length < app.ar.length)
  rw [same] at packed
  refine ⟨ar, f, extra, by rw [appEventSet, set]; rfl, length, ⟨packed, ?_, ?_,
    consistent.ordered, consistent.named, consistent.alarm⟩, ?_⟩
  · rcases kinds with ⟨rfl, rfl⟩ | ⟨rfl, rfl⟩ | ⟨rfl, rfl, absent⟩
    · rw [List.append_nil, map_mark_arep]
      exact consistent.distinct
    · simpa using consistent.distinct
    · rw [List.map_id, List.map_append, List.nodup_append]
      refine ⟨consistent.distinct, by simp, ?_⟩
      rintro x member y fresh rfl
      have last : x = arep := List.mem_singleton.mp fresh
      exact absent (last ▸ member)
  · intro a member other set
    rcases kinds with ⟨rfl, rfl⟩ | ⟨rfl, rfl⟩ | ⟨rfl, rfl, -⟩
    · rw [List.append_nil] at member
      obtain ⟨b, old, rfl⟩ := List.mem_map.mp member
      rw [mark_arep]
      rcases (mark_has b other).mp set with earlier | ⟨rfl, rfl⟩
      · exact consistent.asked b old other earlier
      · exact asked
    · exact consistent.asked a (by simpa using member) other set
    · rw [List.map_id, List.mem_append, List.mem_singleton] at member
      rcases member with old | rfl
      · exact consistent.asked a old other set
      · exact has_bit.mp set ▸ asked
  · rcases kinds with mark | same | ⟨rfl, rfl, -⟩
    · exact .inl mark
    · exact .inr (.inl same)
    · exact .inr (.inr ⟨rfl, rfl⟩)

/-- A callback that has not set anything yet but the argument of an alarm. -/
theorem Consistent.traced (consistent : Consistent app live) (cb : Callback A) (flags : BitVec 32) :
    Consistent { app with
      trace := app.trace ++ [.callback cb]
      alarmArg := (Occurrence.callback cb).alarmArg.getD app.alarmArg
      mainEvents := flags } live := by
  refine ⟨consistent.packed, consistent.distinct, fun a member event set =>
    (consistent.asked a member event set).concat (by simp [Occurrence.answers]),
    consistent.ordered.concat (by simp [Answered, Occurrence.answers]), consistent.named, ?_⟩
  intro alarmArg latest
  rw [latestAlarm_concat] at latest
  cases given : (Occurrence.callback cb).alarmArg with
  | none => exact consistent.alarm alarmArg (by simpa [given] using latest)
  | some own => simpa [given] using latest

/-- The events that a callback may set. -/
theorem grown_of_event {cb : Callback A} {f : Ar → Ar} (indicates : cb.indicates = some (arep, event))
    (kinds : f = Ar.mark arep event.bit ∧ extra = [] ∨ f = id ∧ extra = [] ∨
      f = id ∧ extra = [⟨arep, event.bit⟩]) (flags : BitVec 32) :
    Grown [cb] flags (flags ||| event.bit) f extra := by
  have wakes : ∀ other, Has flags other → Has (flags ||| event.bit) other :=
    fun other set => has_or.mpr (.inl set)
  have woken : Has (flags ||| event.bit) event := has_or.mpr (.inr rfl)
  rcases kinds with ⟨rfl, rfl⟩ | ⟨rfl, rfl⟩ | ⟨rfl, rfl⟩
  · refine ⟨mark_arep, fun a other set => (mark_has a other).mpr (.inl set), ?_, by simp, wakes⟩
    intro a other set
    rcases (mark_has a other).mp set with earlier | ⟨rfl, rfl⟩
    · exact .inl earlier
    · exact .inr ⟨woken, cb, List.mem_singleton_self _, indicates⟩
  · exact Grown.refl _ wakes
  · refine ⟨fun _ => rfl, fun _ _ => id, fun _ _ => .inl, ?_, wakes⟩
    intro a member other set
    cases List.mem_singleton.mp member
    cases has_bit.mp set
    exact ⟨woken, cb, List.mem_singleton_self _, indicates⟩

theorem runCallback_after (consistent : Consistent app live) (cb : Callback A) (named : Named [cb]) :
    ∃ after f extra, runCallback app cb = some after ∧ Consistent after (live.map f ++ extra) ∧
      After [cb] app after f extra := by
  -- callbacks that set an event
  have sets {arep : BitVec 32} {event : Event} {addArep : Bool}
      (indicates : cb.indicates = some (arep, event)) :
      ∃ after f extra,
        appEventSet { app with
          trace := app.trace ++ [.callback cb]
          alarmArg := (Occurrence.callback cb).alarmArg.getD app.alarmArg } arep event addArep =
          some after ∧ Consistent after (live.map f ++ extra) ∧ After [cb] app after f extra := by
    obtain ⟨ar, f, extra, set, length, consistent, kinds⟩ :=
      appEventSet_consistent (consistent.traced cb app.mainEvents)
      (asked_concat indicates) (named cb (List.mem_singleton_self _) arep event indicates) addArep
    exact ⟨_, f, extra, set, consistent, grown_of_event indicates kinds _, rfl, length⟩
  -- those that set none
  have quiet : ∀ flags, (∀ event, Has app.mainEvents event → Has flags event) →
      ∃ after f extra, some { app with
          trace := app.trace ++ [.callback cb]
          alarmArg := (Occurrence.callback cb).alarmArg.getD app.alarmArg
          mainEvents := flags } = some after ∧
        Consistent after (live.map f ++ extra) ∧ After [cb] app after f extra := by
    intro flags wakes
    refine ⟨_, id, [], rfl, ?_, Grown.refl _ wakes, rfl, rfl⟩
    rw [List.map_id, List.append_nil]
    exact consistent.traced cb flags
  cases cb with
  | stateInd arep event =>
    cases event with
    | abort => exact sets rfl
    | prmend => exact sets rfl
    | startup => exact quiet _ fun _ => id
    | applrdy => exact quiet _ fun _ => id
    | data => exact quiet _ fun _ => id
  | smReleasedInd arep => exact sets rfl
  | alarmInd arep alarmArg => exact sets rfl
  | timerTick => exact quiet _ fun _ set => has_or.mpr (.inl set)
  | other => exact quiet _ fun _ => id

theorem runCallbacks_after (callbacks : List (Callback A)) :
    ∀ {app : App A} {live : List Ar}, Consistent app live → Named callbacks →
      ∃ after f extra, callbacks.foldlM runCallback app = some after ∧
        Consistent after (live.map f ++ extra) ∧ After callbacks app after f extra := by
  induction callbacks with
  | nil =>
    intro app live consistent _
    exact ⟨app, id, [], rfl, by simpa using consistent, Grown.refl _ fun _ => id, by simp, rfl⟩
  | cons cb rest ih =>
    intro app live consistent named
    obtain ⟨mid, f, extra, ran, consistent, one⟩ := runCallback_after consistent cb
      fun c member => named c (List.mem_singleton.mp member ▸ List.mem_cons_self)
    obtain ⟨after, g, more, rest_ran, consistent, two⟩ := ih consistent
      fun c member => named c (List.mem_cons_of_mem _ member)
    refine ⟨after, g ∘ f, extra.map g ++ more, by rw [List.foldlM_cons, ran]; exact rest_ran, ?_,
      one.grown.trans two.grown, ?_, two.length.trans one.length⟩
    · simpa using consistent
    · rw [two.trace, one.trace]
      simp

/-- A call into the stack that answers what was asked, and what is no longer set. -/
theorem callStack_after (consistent : Consistent app live) (call : Call A)
    (answers : ∀ arep event, call.answers = some (arep, event) → Asked app.trace arep event ∧
      ∀ a ∈ live, a.arep = arep → ¬ Has a.events event)
    (acks : ∀ arep alarmArg, call = .alarmSendAck arep alarmArg → alarmArg = app.alarmArg) :
    ∃ callbacks after f extra, callStack app call = some after ∧
      Consistent after (live.map f ++ extra) ∧
      Grown callbacks app.mainEvents after.mainEvents f extra ∧
      after.trace = app.trace ++ .call call :: callbacks.map .callback ∧
      after.ar.length = app.ar.length := by
  have start : Consistent { app with trace := app.trace ++ [.call call], script := app.script.tail }
      live := by
    refine ⟨consistent.packed, consistent.distinct, ?_, consistent.ordered.concat ?_,
      fun callbacks member => consistent.named callbacks (List.mem_of_mem_tail member), ?_⟩
    · intro a member event set
      refine (consistent.asked a member event set).concat fun same => ?_
      exact (answers a.arep event same).2 a member rfl set
    · intro arep event found
      refine ⟨(answers arep event found).1, ?_⟩
      rintro alarmArg ⟨⟩
      cases found
      obtain ⟨latest, given⟩ := (answers arep .alarm rfl).1.latestAlarm
      rw [given, acks arep alarmArg rfl, consistent.alarm latest given]
    · intro alarmArg latest
      rw [latestAlarm_concat] at latest
      exact consistent.alarm alarmArg latest
  have named : Named (app.script.headD []) := by
    cases given : app.script with
    | nil => simp [Named]
    | cons callbacks rest => exact consistent.named callbacks (given ▸ List.mem_cons_self)
  obtain ⟨after, f, extra, ran, consistent, grown⟩ := runCallbacks_after _ start named
  exact ⟨_, after, f, extra, ran, consistent, grown.grown, by simp [grown.trace], grown.length⟩

end Profeth
