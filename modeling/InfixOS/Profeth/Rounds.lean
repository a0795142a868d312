import InfixOS.Profeth.Delivery

/-! Whole rounds of the main loop, and the states that rounds and ticks of the timer reach. -/
namespace Profeth
open Slots

variable {A : Type} {app after : App A} {live later : List Ar} {new : List (Occurrence A)}
  {arep : BitVec 32} {event : Event} {handler : Handler A}

theorem appArReadyForDataHandler_answers :
    Answers .readyForData (appArReadyForDataHandler (A := A)) fun _ arep => .applicationReady arep :=
  ⟨fun _ _ => rfl, fun _ _ => rfl, by simp⟩

theorem appArAlarmHandler_answers :
    Answers .alarm (appArAlarmHandler (A := A)) fun app arep => .alarmSendAck arep app.alarmArg :=
  ⟨fun _ _ => rfl, fun _ _ => rfl, by rintro _ _ _ _ ⟨⟩; rfl⟩

theorem appArSmReleasedHandler_answers :
    Answers .smReleased (appArSmReleasedHandler (A := A)) fun _ arep => .smReleasedCnf arep :=
  ⟨fun _ _ => rfl, fun _ _ => rfl, by simp⟩

/-- A part of a round, which is left out when its flag is not set. -/
structure Part (flagged : Prop) (event : Event) (app after : App A) (live later : List Ar)
    (new : List (Occurrence A)) : Prop where
  served : Served [event] app after live later new
  awake : Awake later after.mainEvents
  once : flagged → ∀ a ∈ live, Has a.events event → answersTo new a.arep event = 1

theorem pass_part {call : App A → BitVec 32 → Call A} (handles : Answers event handler call)
    (consistent : Consistent app live) (awake : Awake live app.mainEvents) (flagged : Prop)
    [Decidable flagged] :
    ∃ after later new, (if flagged then appHandleEventAr app event handler else some app) = some after ∧
      Part flagged event app after live later new := by
  split
  · obtain ⟨after, later, new, ran, visited⟩ := appHandleEventAr_visited handles consistent awake
    exact ⟨after, later, new, ran, visited.served, visited.awake, fun _ => visited.once⟩
  case isFalse off => exact ⟨app, live, [], rfl, .refl consistent _, awake, fun on => absurd on off⟩

/-- No callback indicates a tick for a relation. -/
theorem Consistent.no_timer (consistent : Consistent app live) (a : Ar) (member : a ∈ live) :
    ¬ Has a.events .timer := by
  intro set
  obtain ⟨_, o, _, -, indicates, -⟩ := consistent.asked a member .timer set
  cases o with
  | call c => cases indicates
  | callback cb =>
    cases cb with
    | stateInd arep event => cases event <;> cases indicates
    | smReleasedInd arep => cases indicates
    | alarmInd arep alarmArg => cases indicates
    | timerTick => cases indicates
    | other => cases indicates

theorem Awake.grown {callbacks : List (Callback A)} {flags woken : BitVec 32} {f : Ar → Ar}
    {extra : List Ar} (awake : Awake live flags) (grown : Grown callbacks flags woken f extra) :
    Awake (live.map f ++ extra) woken := by
  intro b member event set
  rcases List.mem_append.mp member with moved | added
  · obtain ⟨a, old, rfl⟩ := List.mem_map.mp moved
    rcases grown.sets a event set with earlier | ⟨now, -⟩
    · exact grown.flags event (awake a old event earlier)
    · exact now
  · exact (grown.adds b added event set).1

/-- Up to the call into the stack a tick touches no relation. -/
theorem timerStart_served (consistent : Consistent app live) (events : List Event) :
    ∃ new, Served events app (timerStart app) live live new := by
  have silent : ∀ counter, Served events app
      { osEventClr app Event.timer.bit with processDataTickCounter := counter } live live [] := by
    intro counter
    have same := Served.refl consistent events
    exact ⟨consistent.beside _ _, same.trace, rfl, same.kept, same.fresh, same.only⟩
  simp only [timerStart, appHandleCyclicData]
  split
  · split
    · exact ⟨[], silent _⟩
    · have polled : Consistent { osEventClr app Event.timer.bit with
          processDataTickCounter := 0, trace := app.trace ++ [.call .cyclicDataPoll] } live := by
        refine ⟨consistent.packed, consistent.distinct, fun a member event set => ?_,
          consistent.ordered.concat (by simp [Answered, Occurrence.answers, Call.answers]),
          consistent.named, fun alarmArg latest => consistent.alarm alarmArg ?_⟩
        · exact (consistent.asked a member event set).concat (by simp [Occurrence.answers, Call.answers])
        · rwa [latestAlarm_concat] at latest
      refine ⟨[.call .cyclicDataPoll], polled, rfl, rfl, (silent 0).kept,
        fun b member event set => .inl ⟨b, member, rfl, set⟩, ?_⟩
      simp [Occurrence.answers, Call.answers]
  · exact ⟨[], silent _⟩

theorem timerStart_flags (app : App A) :
    (timerStart app).mainEvents = app.mainEvents &&& ~~~Event.timer.bit := by
  simp only [timerStart, appHandleCyclicData]
  split
  · split <;> rfl
  · rfl

theorem timer_part (consistent : Consistent app live) (awake : Awake live app.mainEvents)
    (flagged : Prop) [Decidable flagged] :
    ∃ after later new, (if flagged then appHandleEventTimer app else some app) = some after ∧
      Part flagged .timer app after live later new := by
  split
  · obtain ⟨polled, served⟩ := timerStart_served consistent [.timer]
    obtain ⟨callbacks, after, f, extra, ran, consistent', grown, trace, length⟩ :=
      callStack_after served.consistent .handlePeriodic (by simp [Call.answers]) (by simp)
    have whole := served.trans (grown.served [] consistent' trace length (by simp [Call.answers]))
    refine ⟨after, _, _, ran, whole, Awake.grown ?_ grown,
      fun _ a member set => absurd set (consistent.no_timer a member)⟩
    rw [timerStart_flags]
    intro a member event set
    refine has_clear.mpr ⟨awake a member event set, ?_⟩
    rintro rfl
    exact consistent.no_timer a member set
  · exact ⟨app, live, [], rfl, .refl consistent _, awake,
      fun _ a member set => absurd set (consistent.no_timer a member)⟩

/-- The last part of a round removes what was aborted. -/
theorem abort_part (consistent : Consistent app live) (awake : Awake live app.mainEvents)
    (flagged : Prop) [Decidable flagged] :
    ∃ after, (if flagged then appHandleEventAr app .abort appArAbortHandler else some app) = some after ∧
      Consistent after (live.filter fun a => ¬ (flagged ∧ Has a.events .abort)) ∧
      Awake (live.filter fun a => ¬ (flagged ∧ Has a.events .abort)) after.mainEvents ∧
      after.trace = app.trace ∧ after.ar.length = app.ar.length := by
  split
  case isFalse off =>
    have all : (live.filter fun a => ¬ (flagged ∧ Has a.events .abort)) = live :=
      List.filter_eq_self.mpr fun a _ => by simp [off]
    rw [all]
    exact ⟨app, rfl, consistent, awake, rfl, rfl⟩
  case isTrue on =>
    obtain ⟨pad, split, unused⟩ := consistent.packed.split
    obtain ⟨ar, ran, length, packed⟩ := abort_loop unused live (app.ar.length + 1)
      (osEventClr app Event.abort.bit) [] false (by rw [split, List.length_append]; omega) split consistent.packed.inUse
      (by simp)
    have same : (used Ar.unused [] ++ live.filter fun a => ¬ Has a.events .abort) =
        live.filter fun a => ¬ (flagged ∧ Has a.events .abort) := by
      simp [used, on]
    rw [same] at packed
    refine ⟨_, ran, ⟨packed, ?_, ?_, consistent.ordered, consistent.named,
      consistent.alarm⟩, ?_, rfl, length⟩
    · exact consistent.distinct.sublist (List.filter_sublist.map _)
    · exact fun a member => consistent.asked a (List.mem_of_mem_filter member)
    · intro a member event set
      obtain ⟨member, stays⟩ := List.mem_filter.mp member
      refine has_clear.mpr ⟨awake a member event set, ?_⟩
      rintro rfl
      simp [on, set] at stays

theorem Served.answersTo_eq_zero {events : List Event} (served : Served events app after live later new)
    (other : event ∉ events) : answersTo new arep event = 0 :=
  Profeth.answersTo_eq_zero fun o member answers => other (served.only o member arep event answers)

/-- A round: `mid` is the state before its last part. -/
structure Round (app mid after : App A) (live between later : List Ar) (new : List (Occurrence A)) :
    Prop where
  served : Served [.readyForData, .alarm, .timer, .smReleased] app mid live between new
  once : ∀ a ∈ live, ∀ event ∈ [Event.readyForData, .alarm, .smReleased], Has a.events event →
    answersTo new a.arep event = 1
  consistent : Consistent after later
  awake : Awake later after.mainEvents
  trace : after.trace = app.trace ++ new
  length : after.ar.length = app.ar.length
  removes : later = between.filter fun a => ¬ (Has app.mainEvents .abort ∧ Has a.events .abort)

theorem appLoopBody_round (consistent : Consistent app live) (awake : Awake live app.mainEvents) :
    ∃ mid after between later new, appLoopBody app = some after ∧
      Round app mid after live between later new := by
  obtain ⟨app₁, live₁, new₁, ran₁, ready⟩ := pass_part appArReadyForDataHandler_answers consistent awake
    (Has (app.mainEvents &&& mask) .readyForData)
  obtain ⟨app₂, live₂, new₂, ran₂, alarm⟩ := pass_part appArAlarmHandler_answers
    ready.served.consistent ready.awake (Has (app.mainEvents &&& mask) .alarm)
  obtain ⟨app₃, live₃, new₃, ran₃, timer⟩ := timer_part alarm.served.consistent alarm.awake
    (Has (app.mainEvents &&& mask) .timer)
  obtain ⟨app₄, live₄, new₄, ran₄, released⟩ := pass_part appArSmReleasedHandler_answers
    timer.served.consistent timer.awake (Has (app.mainEvents &&& mask) .smReleased)
  obtain ⟨app₅, ran₅, consistent₅, awake₅, trace₅, length₅⟩ := abort_part released.served.consistent
    released.awake (Has (app.mainEvents &&& mask) .abort)
  have two := ready.served.trans alarm.served
  have three := two.trans timer.served
  have four := three.trans released.served
  refine ⟨app₄, app₅, live₄, _, new₁ ++ new₂ ++ new₃ ++ new₄, ?_, four, ?_, consistent₅, awake₅,
    trace₅.trans four.trace, length₅.trans four.length, by simp only [has_mask]⟩
  · simp only [appLoopBody, ran₁, ran₂, ran₃, ran₄, ran₅, Option.bind_eq_bind, Option.bind_some]
  · -- the other parts leave the event to its own
    intro a member event kind set
    have flagged : Has (app.mainEvents &&& mask) event := has_mask.mpr (awake a member event set)
    simp only [answersTo_append]
    simp only [List.mem_cons, List.not_mem_nil, or_false] at kind
    rcases kind with rfl | rfl | rfl
    · rw [ready.once flagged a member set, alarm.served.answersTo_eq_zero (by decide),
        timer.served.answersTo_eq_zero (by decide), released.served.answersTo_eq_zero (by decide)]
    · obtain ⟨b, member, same, keeps⟩ := ready.served.kept a member
      rw [ready.served.answersTo_eq_zero (by decide), timer.served.answersTo_eq_zero (by decide),
        released.served.answersTo_eq_zero (by decide), ← same,
        alarm.once flagged b member (keeps .alarm (by decide) set)]
    · obtain ⟨b, member, same, keeps⟩ := three.kept a member
      rw [ready.served.answersTo_eq_zero (by decide), timer.served.answersTo_eq_zero (by decide),
        alarm.served.answersTo_eq_zero (by decide), ← same,
        released.once flagged b member (keeps .smReleased (by decide) set)]

theorem appInit_consistent (pnetMaxAr : Nat) (alarmArg : A) :
    Consistent (appInit pnetMaxAr alarmArg) [] :=
  ⟨⟨by simp, _, rfl, by simp [Ar.unused]⟩, by simp, by simp,
    by intro before o after split; simp [appInit] at split, by simp [appInit], by simp [appInit, latestAlarm]⟩

/-- A script for the next round. -/
theorem Consistent.scripted {script : List (List (Callback A))} (consistent : Consistent app live)
    (named : ∀ callbacks ∈ script, Named callbacks) : Consistent { app with script } live :=
  ⟨consistent.packed, consistent.distinct, consistent.asked, consistent.ordered, named, consistent.alarm⟩

theorem Reachable.consistent {pnetMaxAr : Nat} (reachable : Reachable pnetMaxAr app) :
    ∃ live, Consistent app live ∧ Awake live app.mainEvents ∧ app.ar.length = pnetMaxAr := by
  induction reachable with
  | init alarmArg => exact ⟨[], appInit_consistent _ _, by simp [Awake], by simp [appInit]⟩
  | tick _ ih =>
    obtain ⟨live, consistent, awake, length⟩ := ih
    exact ⟨live, consistent.beside _ _, fun a member event set => has_or.mpr (.inl (awake a member event set)), length⟩
  | round _ named ran ih =>
    obtain ⟨live, consistent, awake, length⟩ := ih
    obtain ⟨mid, after, between, later, new, ran', round⟩ :=
      appLoopBody_round (consistent.scripted named) awake
    cases ran.symm.trans ran'
    exact ⟨later, round.consistent, round.awake, round.length.trans length⟩

/-- The relations in use come first and differ, each event of one has a flag of the main task,
and the first entry tells whether there is any. -/
theorem table_invariant {pnetMaxAr : Nat} (reachable : Reachable pnetMaxAr app) :
    Packed Ar.unused (used Ar.unused app.ar) app.ar ∧
      ((used Ar.unused app.ar).map Ar.arep).Nodup ∧
      (∀ a ∈ used Ar.unused app.ar, ∀ event, Has a.events event → Has app.mainEvents event) ∧
      (appIsConnectedToController app = true ↔ used Ar.unused app.ar ≠ []) := by
  obtain ⟨live, consistent, awake, -⟩ := reachable.consistent
  rw [consistent.packed.used_eq]
  refine ⟨consistent.packed, consistent.distinct, awake, ?_⟩
  obtain ⟨pad, split, unused⟩ := consistent.packed.split
  unfold appIsConnectedToController appArArep
  rw [split]
  cases live with
  | cons a live =>
    have inUse := consistent.packed.inUse a List.mem_cons_self
    simpa [entryAt, Ar.unused] using inUse
  | nil =>
    cases pad with
    | nil => simp [entryAt]
    | cons b pad =>
      have free := unused b List.mem_cons_self
      simpa [entryAt, Ar.unused] using free

/-- Two controllers have connected in the first tick. -/
def connected : App Nat where
  ar := [⟨1, 1⟩, ⟨2, 1⟩, ⟨uint32Max, 0⟩]
  mainEvents := 1
  alarmArg := 0
  processDataTickCounter := 0
  trace := [.call .handlePeriodic, .callback (.stateInd 1 .prmend), .callback (.stateInd 2 .prmend)]
  script := []

theorem connected_reachable : Reachable 3 connected := by
  have named : ∀ callbacks ∈ [[Callback.stateInd (A := Nat) 1 .prmend, .stateInd 2 .prmend]],
      Named callbacks := by simp [Named, Callback.indicates, uint32Max]
  exact .round (.tick (.init 0)) named (by decide +kernel)

theorem table_invariant_connected : Reachable 3 connected ∧
    (appIsConnectedToController connected = true ↔ used Ar.unused connected.ar ≠ []) :=
  ⟨connected_reachable, (table_invariant connected_reachable).2.2.2⟩

/-- Every answer is to an indication that has not been answered before. An alarm is acknowledged
with the argument of the alarm that came last, whichever relation that was for. -/
theorem answers_asked {pnetMaxAr : Nat} (reachable : Reachable pnetMaxAr app)
    {before behind : List (Occurrence A)} {o : Occurrence A}
    (occurs : app.trace = before ++ o :: behind) (answers : o.answers = some (arep, event)) :
    ∃ earlier asked since, before = earlier ++ asked :: since ∧
      asked.indicates = some (arep, event) ∧ (∀ p ∈ since, p.answers ≠ some (arep, event)) ∧
      ∀ alarmArg, o = .call (.alarmSendAck arep alarmArg) → latestAlarm before = some alarmArg := by
  obtain ⟨live, consistent, -, -⟩ := reachable.consistent
  obtain ⟨⟨earlier, asked, since, rfl, indicates, silent⟩, latest⟩ :=
    consistent.ordered before o behind occurs arep event answers
  exact ⟨earlier, asked, since, rfl, indicates, silent, latest⟩

/-- The first controller has sent an alarm while it was answered, and the second was aborted. -/
def alarmed : App Nat where
  ar := [⟨1, 4⟩, ⟨2, 32768⟩, ⟨uint32Max, 0⟩]
  mainEvents := 32772
  alarmArg := 7
  processDataTickCounter := 0
  trace := connected.trace ++ [.call (.applicationReady 1), .callback (.alarmInd 1 7),
    .callback (.stateInd 2 .abort), .call (.applicationReady 2)]
  script := []

theorem alarmed_reachable : Reachable 3 alarmed := by
  have named : ∀ callbacks ∈ [[Callback.alarmInd 1 7, .stateInd 2 .abort]], Named callbacks := by
    simp [Named, Callback.indicates, uint32Max]
  exact .round connected_reachable named (by decide +kernel)

theorem answers_asked_alarmed : Reachable 3 alarmed ∧
    ∃ earlier asked since, connected.trace = earlier ++ asked :: since ∧
      asked.indicates = some (1, .readyForData) ∧ ∀ p ∈ since, p.answers ≠ some (1, .readyForData) := by
  obtain ⟨earlier, asked, since, split, indicates, silent, -⟩ :=
    answers_asked (o := .call (.applicationReady 1)) alarmed_reachable rfl rfl
  exact ⟨alarmed_reachable, earlier, asked, since, split, indicates, silent⟩

/-- A round ends, whatever the stack does meanwhile. It answers each event that was set for a
relation once, removes the relations that were aborted and keeps the others. -/
theorem round_serves {pnetMaxAr : Nat} (reachable : Reachable pnetMaxAr app)
    {script : List (List (Callback A))} (named : ∀ callbacks ∈ script, Named callbacks) :
    ∃ after new, appLoopBody { app with script } = some after ∧ after.trace = app.trace ++ new ∧
      ∀ a ∈ used Ar.unused app.ar,
        (∀ event ∈ [Event.readyForData, .alarm, .smReleased], Has a.events event →
          answersTo new a.arep event = 1) ∧
        (Has a.events .abort → a.arep ∉ (used Ar.unused after.ar).map Ar.arep) ∧
        (¬ Has a.events .abort → (∀ o ∈ new, o.indicates ≠ some (a.arep, .abort)) →
          a.arep ∈ (used Ar.unused after.ar).map Ar.arep) := by
  obtain ⟨live, consistent, awake, -⟩ := reachable.consistent
  obtain ⟨mid, after, between, later, new, ran, round⟩ :=
    appLoopBody_round (consistent.scripted named) awake
  refine ⟨after, new, ran, round.trace, ?_⟩
  rw [consistent.packed.used_eq, round.consistent.packed.used_eq]
  intro a member
  obtain ⟨b, there, same, keeps⟩ := round.served.kept a member
  refine ⟨round.once a member, fun set found => ?_, fun off silent => ?_⟩
  · obtain ⟨c, stays, same'⟩ := List.mem_map.mp found
    rw [round.removes, List.mem_filter] at stays
    have one : c = b := List.inj_on_of_nodup_map round.served.consistent.distinct stays.1 there
      (same'.trans same.symm)
    have gone : Has c.events .abort := one ▸ keeps .abort (by decide) set
    have flagged : Has app.mainEvents .abort := awake a member .abort set
    simp [gone, flagged] at stays
  · rw [← same, round.removes]
    refine List.mem_map_of_mem (List.mem_filter.mpr ⟨there, decide_eq_true fun aborted => ?_⟩)
    rcases round.served.fresh b there .abort aborted.2 with ⟨c, old, same', set⟩ | ⟨o, said, indicates⟩
    · have one : c = a := List.inj_on_of_nodup_map consistent.distinct old member (same'.trans same)
      exact off (one ▸ set)
    · exact silent o said (same ▸ indicates)

theorem round_serves_alarmed : Reachable 3 alarmed ∧
    ∃ after new, appLoopBody { alarmed with script := [[.smReleasedInd 1]] } = some after ∧
      after.trace = alarmed.trace ++ new ∧ answersTo new 1 .alarm = 1 ∧
      2 ∉ (used Ar.unused after.ar).map Ar.arep := by
  have named : ∀ callbacks ∈ [[Callback.smReleasedInd (A := Nat) 1]], Named callbacks := by
    simp [Named, Callback.indicates, uint32Max]
  obtain ⟨after, new, ran, trace, served⟩ := round_serves alarmed_reachable named
  exact ⟨alarmed_reachable, after, new, ran, trace,
    (served ⟨1, 4⟩ (by decide)).1 .alarm (by decide) (by decide),
    (served ⟨2, 32768⟩ (by decide)).2.1 (by decide)⟩

end Profeth
