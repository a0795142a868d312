import InfixOS.IetfSystem.Callbacks

/-! The generated files over any sequence of transactions. A transaction is one
CHANGE and, when that is accepted, one DONE or one ABORT. -/
namespace IetfSystem
open Core Posix

inductive Callback where
  | clock
  | ntp
  | dns
  deriving DecidableEq, Repr

def Callback.conf : Callback → String
  | .clock => timezoneConf
  | .ntp => chronyConf
  | .dns => resolvConf

def Callback.handle (host : Host) (calls : Calls) (session : Session) :
    Callback → SrEvent → Files Entry → Outcome
  | .clock => changeClock host calls session
  | .ntp => changeNtp calls session
  | .dns => changeDns host calls session

inductive Verdict where
  | commit
  | abandon
  deriving DecidableEq, Repr

def Verdict.event : Verdict → SrEvent
  | .commit => .done
  | .abandon => .abort

/-- The verdict of the other subscribers counts only after an accepted CHANGE. -/
structure Transaction where
  session : Session
  calls : Calls
  verdict : Verdict

def Callback.change (host : Host) (cb : Callback) (files : Files Entry) (tx : Transaction) : Outcome :=
  cb.handle host tx.calls tx.session .change files

def Callback.transact (host : Host) (cb : Callback) (files : Files Entry) (tx : Transaction) :
    Files Entry :=
  if (cb.change host files tx).rc = .ok then
    (cb.handle host tx.calls tx.session tx.verdict.event (cb.change host files tx).files).files
  else (cb.change host files tx).files

def Callback.run (host : Host) (cb : Callback) (start : Files Entry) (txs : List Transaction) :
    Files Entry := txs.foldl (cb.transact host) start

def Callback.Commits (host : Host) (cb : Callback) (files : Files Entry) (tx : Transaction) : Prop :=
  (cb.change host files tx).rc = .ok ∧ tx.verdict = .commit

/-- File creation succeeds. -/
def Transaction.Creates (tx : Transaction) : Prop := tx.calls.opens = true ∧ tx.calls.closes = true

/-- The shell takes the zone as it is written. -/
def Session.PlainZone (session : Session) : Prop :=
  ∀ zone, session.timezoneName = some zone → zone.toList.all isOrdinary = true

/-- /etc/timezone and the target of /etc/localtime name one zone. -/
def SameZone (files : Files Entry) : Prop :=
  ∃ zone, files timezoneConf = some (.file (zone ++ "\n")) ∧
    files localtime = some (.link (zoneinfo ++ zone))

/-- What holds between transactions, after those in `txs`. -/
structure Atomic (host : Host) (cb : Callback) (start : Files Entry) (txs : List Transaction) : Prop where
  no_upcoming : cb.run host start txs (upcoming cb.conf) = none
  last_commit : ∀ before tx after, txs = before ++ tx :: after →
    cb.Commits host (cb.run host start before) tx →
    (∀ mid later rest, after = mid ++ later :: rest →
      ¬cb.Commits host (cb.run host start (before ++ tx :: mid)) later) →
    (cb.change host (cb.run host start before) tx).files (upcoming cb.conf) ≠ none ∧
    cb.run host start txs cb.conf =
      (cb.change host (cb.run host start before) tx).files (upcoming cb.conf) ∧
    cb.run host start txs (previous cb.conf) = cb.run host start before cb.conf
  no_commit : (∀ before tx after, txs = before ++ tx :: after →
    ¬cb.Commits host (cb.run host start before) tx) →
    (cb.run host start txs).versions cb.conf = start.versions cb.conf
  refused : ∀ before tx, txs = before ++ [tx] → ¬cb.Commits host (cb.run host start before) tx →
    (cb.run host start txs).versions cb.conf = (cb.run host start before).versions cb.conf
  same_zone : cb = .clock → SameZone start → SameZone (cb.run host start txs)

/-- What the first phase may do to the files of `conf`. -/
structure Prepares (conf : String) (files : Files Entry) (out : Outcome) : Prop where
  accepted : out.rc = .ok → ∃ entry, out.files (upcoming conf) = some entry
  refused : out.rc ≠ .ok → out.files (upcoming conf) = none
  keeps : out.files.versions conf = files.versions conf

theorem Prepares.accept {before : Files Entry} (entry : Entry)
    (same : before.versions conf = files.versions conf) :
    Prepares conf files ⟨before.write (upcoming conf) entry, [], .ok⟩ where
  accepted _ := ⟨entry, by simp⟩
  refused failed := absurd rfl failed
  keeps := (Files.versions_prepare _ _).trans same

theorem Prepares.refuse (failed : rc ≠ .ok) (absent : before (upcoming conf) = none)
    (same : before.versions conf = files.versions conf) : Prepares conf files ⟨before, [], rc⟩ where
  accepted ok := absurd ok failed
  refused _ := absent
  keeps := same

/-- The next version is removed again before the callback fails. -/
theorem Prepares.discard {before : Files Entry} (failed : rc ≠ .ok)
    (same : before.versions conf = files.versions conf) :
    Prepares conf files ⟨before.remove (upcoming conf), [], rc⟩ :=
  .refuse failed (by simp) ((Files.versions_discard _).trans same)

theorem linkLine_toList (zone : String) : (linkLine zone).toList =
    "ln -s /usr/share/zoneinfo/".toList ++ zone.toList ++ " /etc/localtime+".toList :=
  String.toList_append.trans (congrArg (· ++ " /etc/localtime+".toList) String.toList_append)

theorem zoneinfo_toList (zone : String) :
    (zoneinfo ++ zone).toList = "/usr/share/zoneinfo/".toList ++ zone.toList := String.toList_append

theorem linkLine_words (plain : zone.toList.all isOrdinary = true) :
    commandWords (linkLine zone) = some ["ln", "-s", zoneinfo ++ zone, "/etc/localtime+"] := by
  have opening : "ln -s /usr/share/zoneinfo/".toList =
      "ln".toList ++ ' ' :: ("-s".toList ++ ' ' :: "/usr/share/zoneinfo/".toList) := by decide
  have closing : " /etc/localtime+".toList = ' ' :: "/etc/localtime+".toList := by decide
  have line : (linkLine zone).toList =
      joinWords ["ln", "-s", zoneinfo ++ zone, "/etc/localtime+"] := by
    rw [linkLine_toList, opening, closing]
    simp only [joinWords, zoneinfo_toList, List.append_assoc, List.cons_append]
  rw [commandWords, line, readWords_join]
  intro w member
  simp only [List.mem_cons, List.not_mem_nil, or_false] at member
  rcases member with rfl | rfl | rfl | rfl
  · decide
  · decide
  · have first : "/usr/share/zoneinfo/".toList.all isOrdinary = true := by decide
    have whole : (zoneinfo ++ zone).toList.all isOrdinary = true := by
      rw [zoneinfo_toList, List.all_append, first, plain]
      rfl
    obtain ⟨tail, same⟩ : ∃ tail, (zoneinfo ++ zone).toList = '/' :: tail :=
      ⟨_, zoneinfo_toList zone⟩
    rw [same] at whole ⊢
    simpa [isPlainWord] using whole
  · decide

theorem prepareClock_cases (host : Host) (files : Files Entry) (plain : session.PlainZone)
    (opens : calls.opens = true) (closes : calls.closes = true) :
    prepareClock host calls session files = ⟨files, [], .validationFailed⟩ ∨
    prepareClock host calls session files =
      ⟨files.remove (upcoming localtime), [], .validationFailed⟩ ∨
    ∃ zone, prepareClock host calls session files =
      ⟨((files.remove (upcoming localtime)).write (upcoming localtime) (.link (zoneinfo ++ zone))).write
        (upcoming timezoneConf) (.file (zone ++ "\n")), [], .ok⟩ := by
  cases named : session.timezoneName with
  | none => exact .inl (by simp [prepareClock, named])
  | some zone =>
    have words := linkLine_words (plain zone named)
    have path : upcoming localtime = "/etc/localtime+" := by decide
    cases links : calls.links with
    | false =>
      refine .inr (.inl ?_)
      simp [prepareClock, named, systemLn, words, lnS, links]
    | true =>
      refine .inr (.inr ⟨zone, ?_⟩)
      simp [prepareClock, named, systemLn, words, lnS, links, path, writesf, opens, closes]

theorem prepareClock_prepares (host : Host) (plain : session.PlainZone) (opens : calls.opens = true)
    (closes : calls.closes = true) (absent : files (upcoming timezoneConf) = none) :
    Prepares timezoneConf files (prepareClock host calls session files) := by
  have other : upcoming timezoneConf ≠ upcoming localtime := by decide
  have live : timezoneConf ≠ upcoming localtime := by decide
  have prev : previous timezoneConf ≠ upcoming localtime := by decide
  rcases prepareClock_cases host files plain opens closes with same | same | ⟨zone, same⟩
  · rw [same]
    exact .refuse (by simp) absent rfl
  · rw [same]
    exact .refuse (by simp) ((Files.remove_other _ other).trans absent)
      (Files.versions_remove _ live prev)
  · rw [same]
    exact .accept _ ((Files.versions_write _ _ live prev).trans (Files.versions_remove _ live prev))

theorem prepareNtp_prepares (session : Session) (opens : calls.opens = true) (files : Files Entry) :
    Prepares chronyConf files (prepareNtp calls session files) := by
  simp only [prepareNtp, opens, Bool.true_eq_false, ↓reduceIte]
  split
  · exact .discard ‹_› rfl
  · split
    · exact .discard (by simp) (Files.versions_prepare _ _)
    · exact .accept _ rfl

theorem prepareDns_prepares (session : Session) (opens : calls.opens = true) (files : Files Entry) :
    Prepares resolvConf files (prepareDns calls session files) := by
  simp only [prepareDns, opens, Bool.true_eq_false, ↓reduceIte]
  split
  · exact .discard ‹_› (Files.versions_prepare _ _)
  · split
    · exact .discard ‹_› (Files.versions_prepare _ _)
    · exact .accept _ rfl

theorem Callback.prepares (host : Host) (cb : Callback) (tx : Transaction) (creates : tx.Creates)
    (plain : cb = .clock → tx.session.PlainZone) (absent : files (upcoming cb.conf) = none) :
    Prepares cb.conf files (cb.change host files tx) := by
  cases cb with
  | clock => exact prepareClock_prepares host (plain rfl) creates.1 creates.2 absent
  | ntp => exact prepareNtp_prepares tx.session creates.1 files
  | dns => exact prepareDns_prepares tx.session creates.1 files

theorem clock_apart (which : q = timezoneConf ∨ q = previous timezoneConf ∨ q = upcoming timezoneConf)
    (files : Files Entry) : (files.commit localtime) q = files q := by
  apply Files.commit_other
  all_goals
    rcases which with rfl | rfl | rfl
    all_goals decide

theorem twoPhase_done (prepare finish : Files Entry → Outcome)
    (prepared : files (upcoming conf) = some entry) :
    twoPhase conf prepare finish .done files = finish files := by
  simp [twoPhase, Files.present, prepared]

/-- The second phase; that of the clock moves the link as well. -/
theorem Callback.done_files (host : Host) (cb : Callback) (tx : Transaction)
    (prepared : files (upcoming cb.conf) = some entry) :
    (cb.handle host tx.calls tx.session .done files).files =
      match cb with
      | .clock => (files.commit cb.conf).commit localtime
      | _ => files.commit cb.conf := by
  cases cb with
  | clock => exact congrArg Outcome.files (twoPhase_done _ _ prepared)
  | ntp => exact congrArg Outcome.files (twoPhase_done _ _ prepared)
  | dns => exact congrArg Outcome.files (twoPhase_done _ _ prepared)

theorem Callback.done_commits (host : Host) (cb : Callback) (tx : Transaction)
    (prepared : files (upcoming cb.conf) = some entry) :
    (cb.handle host tx.calls tx.session .done files).files.versions cb.conf = (some entry, files cb.conf) ∧
      (cb.handle host tx.calls tx.session .done files).files (upcoming cb.conf) = none := by
  rw [cb.done_files host tx prepared, ← Files.commit_versions files prepared]
  cases cb with
  | clock =>
    refine ⟨Prod.ext (clock_apart (.inl rfl) _) (clock_apart (.inr (.inl rfl)) _), ?_⟩
    exact (clock_apart (.inr (.inr rfl)) _).trans (Files.commit_upcoming _ _)
  | ntp => exact ⟨rfl, Files.commit_upcoming _ _⟩
  | dns => exact ⟨rfl, Files.commit_upcoming _ _⟩

theorem Callback.abort_files (host : Host) (cb : Callback) (tx : Transaction) (files : Files Entry) :
    (cb.handle host tx.calls tx.session .abort files).files = files.remove (upcoming cb.conf) := by
  cases cb with
  | clock => rfl
  | ntp => rfl
  | dns => rfl

/-- A transaction that commits. -/
theorem Callback.transact_commits (host : Host) (cb : Callback) (tx : Transaction)
    (prepares : Prepares cb.conf files (cb.change host files tx)) (commits : cb.Commits host files tx) :
    ∃ entry, (cb.change host files tx).files (upcoming cb.conf) = some entry ∧
      (cb.transact host files tx).versions cb.conf = (some entry, files cb.conf) ∧
      cb.transact host files tx (upcoming cb.conf) = none := by
  obtain ⟨ok, verdict⟩ := commits
  obtain ⟨entry, prepared⟩ := prepares.accepted ok
  have done := cb.done_commits host tx prepared
  have live : (cb.change host files tx).files cb.conf = files cb.conf := congrArg Prod.fst prepares.keeps
  refine ⟨entry, prepared, ?_⟩
  simpa only [Callback.transact, ok, ↓reduceIte, verdict, Verdict.event, live] using done

/-- A transaction that is refused by this callback or by another one. -/
theorem Callback.transact_refused (host : Host) (cb : Callback) (tx : Transaction)
    (prepares : Prepares cb.conf files (cb.change host files tx)) (refused : ¬cb.Commits host files tx) :
    (cb.transact host files tx).versions cb.conf = files.versions cb.conf ∧
      cb.transact host files tx (upcoming cb.conf) = none := by
  by_cases ok : (cb.change host files tx).rc = .ok
  · have verdict : tx.verdict = .abandon := by
      cases chosen : tx.verdict with
      | commit => exact absurd ⟨ok, chosen⟩ refused
      | abandon => rfl
    simp only [Callback.transact, ok, ↓reduceIte, verdict, Verdict.event, cb.abort_files]
    exact ⟨(Files.versions_discard _).trans prepares.keeps, Files.remove_self _ _⟩
  · simp only [Callback.transact, ok, ↓reduceIte]
    exact ⟨prepares.keeps, prepares.refused ok⟩

/-- What a transaction is allowed to be. -/
def Transaction.Sound (cb : Callback) (tx : Transaction) : Prop :=
  tx.Creates ∧ (cb = .clock → tx.session.PlainZone)

theorem Callback.transact_upcoming (host : Host) (cb : Callback) (files : Files Entry)
    (tx : Transaction) (absent : files (upcoming cb.conf) = none) (sound : tx.Sound cb) :
    cb.transact host files tx (upcoming cb.conf) = none := by
  have prepares := cb.prepares host tx sound.1 sound.2 absent
  by_cases commits : cb.Commits host files tx
  · obtain ⟨_, _, _, gone⟩ := cb.transact_commits host tx prepares commits
    exact gone
  · exact (cb.transact_refused host tx prepares commits).2

theorem Callback.run_upcoming (host : Host) (cb : Callback) (absent : start (upcoming cb.conf) = none)
    (sound : ∀ tx ∈ txs, Transaction.Sound cb tx) :
    cb.run host start txs (upcoming cb.conf) = none :=
  foldl_inv (fun files : Files Entry => files (upcoming cb.conf) = none) (cb.transact_upcoming host)
    absent sound

/-- A stretch without commits. -/
theorem Callback.run_versions (host : Host) (cb : Callback) (absent : start (upcoming cb.conf) = none)
    (sound : ∀ tx ∈ txs, Transaction.Sound cb tx)
    (none : ∀ before tx after, txs = before ++ tx :: after →
      ¬cb.Commits host (cb.run host start before) tx) :
    (cb.run host start txs).versions cb.conf = start.versions cb.conf := by
  refine foldl_view (fun files : Files Entry => files (upcoming cb.conf) = Option.none)
    (cb.Commits host) (fun files => files.versions cb.conf) (cb.transact_upcoming host) ?_ absent sound none
  intro files tx here legal refused
  exact (cb.transact_refused host tx (cb.prepares host tx legal.1 legal.2 here) refused).1

theorem Callback.run_append (host : Host) (cb : Callback) (start : Files Entry)
    (before after : List Transaction) :
    cb.run host start (before ++ after) = cb.run host (cb.run host start before) after :=
  List.foldl_append

theorem localtime_prepare (host : Host) (session : Session) (plain : session.PlainZone)
    (opens : calls.opens = true) (closes : calls.closes = true) (files : Files Entry) :
    (prepareClock host calls session files).files localtime = files localtime := by
  have link : localtime ≠ upcoming localtime := by decide
  have text : localtime ≠ upcoming timezoneConf := by decide
  rcases prepareClock_cases host files plain opens closes with same | same | ⟨zone, same⟩
  · rw [same]
  · simp [same, Files.remove, link]
  · simp [same, Files.write, Files.remove, link, text]

/-- A DONE of the clock takes both prepared names. -/
theorem sameZone_commit (files : Files Entry) (text : files (upcoming timezoneConf) = some (.file (zone ++ "\n")))
    (link : files (upcoming localtime) = some (.link (zoneinfo ++ zone))) :
    SameZone ((files.commit timezoneConf).commit localtime) := by
  refine ⟨zone, ?_, Files.commit_live _ ?_⟩
  · rw [clock_apart (.inl rfl), Files.commit_live files text]
  · rw [Files.commit_other _ (by decide) (by decide) (by decide), link]

theorem sameZone_committed (host : Host) (files : Files Entry) (tx : Transaction)
    (sound : tx.Sound .clock) (commits : Callback.clock.Commits host files tx) :
    SameZone (Callback.clock.transact host files tx) := by
  obtain ⟨⟨opens, closes⟩, plain⟩ := sound
  obtain ⟨ok, verdict⟩ := commits
  rcases prepareClock_cases host files (plain rfl) opens closes with out | out | ⟨zone, out⟩
  · simp [Callback.change, Callback.handle, changeClock, twoPhase, out] at ok
  · simp [Callback.change, Callback.handle, changeClock, twoPhase, out] at ok
  · have changed : Callback.clock.change host files tx = _ := out
    have other : upcoming localtime ≠ upcoming timezoneConf := by decide
    have prepared : (Callback.clock.change host files tx).files (upcoming timezoneConf) =
        some (.file (zone ++ "\n")) := by simp [changed]
    have linked : (Callback.clock.change host files tx).files (upcoming localtime) =
        some (.link (zoneinfo ++ zone)) := by simp [changed, Files.write, other]
    rw [Callback.transact, if_pos ok, verdict, Verdict.event,
      Callback.clock.done_files host tx prepared]
    exact sameZone_commit _ prepared linked

/-- An abandoned CHANGE leaves the link it prepared behind, but not the live one. -/
theorem localtime_refused (host : Host) (files : Files Entry) (tx : Transaction)
    (sound : tx.Sound .clock) (refused : ¬Callback.clock.Commits host files tx) :
    Callback.clock.transact host files tx localtime = files localtime := by
  obtain ⟨⟨opens, closes⟩, plain⟩ := sound
  have kept : (Callback.clock.change host files tx).files localtime = files localtime :=
    localtime_prepare host tx.session (plain rfl) opens closes files
  unfold Callback.transact
  split
  · rename_i ok
    cases verdict : tx.verdict with
    | commit => exact absurd ⟨ok, verdict⟩ refused
    | abandon =>
      rw [Verdict.event, Callback.abort_files, Files.remove_other _ (by decide), kept]
  · exact kept

theorem sameZone_transact (host : Host) (files : Files Entry) (tx : Transaction)
    (here : files (upcoming timezoneConf) = none ∧ SameZone files) (sound : tx.Sound .clock) :
    Callback.clock.transact host files tx (upcoming timezoneConf) = none ∧
      SameZone (Callback.clock.transact host files tx) := by
  obtain ⟨absent, zone, text, link⟩ := here
  refine ⟨Callback.clock.transact_upcoming host files tx absent sound, ?_⟩
  by_cases commits : Callback.clock.Commits host files tx
  · exact sameZone_committed host files tx sound commits
  · have prepares := Callback.clock.prepares host tx sound.1 sound.2 absent
    have kept := (Callback.clock.transact_refused host tx prepares commits).1
    refine ⟨zone, ?_, ?_⟩
    · exact (congrArg Prod.fst kept).trans text
    · exact (localtime_refused host files tx sound commits).trans link

/-- The last commit of a run decides both versions. -/
theorem Callback.run_last (host : Host) (cb : Callback) (absent : start (upcoming cb.conf) = none)
    (sound : ∀ t ∈ before ++ tx :: after, Transaction.Sound cb t)
    (commits : cb.Commits host (cb.run host start before) tx)
    (none : ∀ mid later rest, after = mid ++ later :: rest →
      ¬cb.Commits host (cb.run host start (before ++ tx :: mid)) later) :
    ∃ entry, (cb.change host (cb.run host start before) tx).files (upcoming cb.conf) = some entry ∧
      (cb.run host start (before ++ tx :: after)).versions cb.conf =
        (some entry, cb.run host start before cb.conf) := by
  have reached := cb.run_upcoming host absent fun t member =>
    sound t (List.mem_append_left _ member)
  have legal : tx.Sound cb := sound tx (by simp)
  obtain ⟨entry, prepared, versions, gone⟩ :=
    cb.transact_commits host tx (cb.prepares host tx legal.1 legal.2 reached) commits
  refine ⟨entry, prepared, ?_⟩
  rw [cb.run_append, ← versions]
  refine cb.run_versions host gone (fun t member => sound t (by simp [member])) ?_
  intro mid later rest same
  have never := none mid later rest same
  rwa [cb.run_append] at never

/-- A host whose other commands do nothing. -/
def quietHost : Host := ⟨fun _ files => (files, 1), fun _ => 0⟩

/-- A system set up for UTC. -/
def utcFiles : Files Entry :=
  fun path =>
    if path = timezoneConf then some (.file "UTC\n")
    else if path = localtime then some (.link "/usr/share/zoneinfo/UTC")
    else none

def setZone (zone : String) (verdict : Verdict) : Transaction where
  session := ⟨some zone, true, ⟨.ok, []⟩, none, none, ⟨.ok, []⟩, ⟨.ok, []⟩⟩
  calls := ⟨true, true, true⟩
  verdict := verdict

end IetfSystem
