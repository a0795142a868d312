import InfixOS.Core.Sysrepo
import InfixOS.Posix.Time

/-! The clock of src/confd/src/confd/ietf-system.c: the time that is reported, and the
remote procedure that sets it. -/
namespace IetfSystem
open Core Posix

def isofmt : List Directive := dateTime ++ [.zone]

def zulufmt : List Directive := dateTime ++ [.literal 'Z']

/-- `fmtime`, of the local time that localtime_r gives. A colon is moved into the
offset. -/
def fmtime (tm : Tm) : List Char :=
  let buf := strftime isofmt tm
  let i := buf.length - 5
  if buf[i]? = some '+' ∨ buf[i]? = some '-' then buf.take (i + 3) ++ ':' :: buf.drop (i + 3) else buf

/-- What a call of `rpc_set_datetime` meets: whether strdup has memory, and the times
that settimeofday takes. -/
structure Call where
  input : List Char
  memory : Bool
  settable : Int → Bool

/-- The last three characters, with the colon taken out. -/
def dropColon (buf : List Char) : List Char :=
  let n := buf.length
  ((buf.set (n - 3) (buf.getD (n - 2) ' ')).set (n - 2) (buf.getD (n - 1) ' ')).take (n - 1)

def scan (buf : List Char) : Option Tm :=
  let n := buf.length
  if buf[n - 3]? = some ':' ∧ (buf[n - 6]? = some '+' ∨ buf[n - 6]? = some '-') then strptime (dropColon buf) isofmt
  else strptime buf zulufmt

/-- The zone in TZ, `"UTC%s%ld"`. -/
def tz (gmtoff : Int) : List Char :=
  "UTC".toList ++ ((if gmtoff > 0 then ['+'] else []) ++ (toString (gmtoff.tdiv 3600)).toList)

def tvSec (tm : Tm) : Int := mktime (tz tm.gmtoff) tm

/-- What is left of a call: its result, the time it has set, and the static `rc`. -/
structure Answer where
  result : SrError
  set : Option Int
  rc : SrError

def noMemory : SrError := .other 4

/-- `rpc_set_datetime`. The variable `rc` is static, and only ever assigned
SR_ERR_OK. -/
def rpcSetDatetime (rc : SrError) (call : Call) : Answer :=
  if !call.memory then ⟨noMemory, none, rc⟩
  else match scan call.input with
    | none => ⟨rc, none, rc⟩
    | some tm => if call.settable (tvSec tm) then ⟨.ok, some (tvSec tm), .ok⟩ else ⟨rc, none, rc⟩

inductive Suffix where
  | zulu
  | offset (negative : Bool) (hours minutes : Nat) (hour : hours ≤ 23) (minute : minutes ≤ 59)

def Suffix.text : Suffix → List Char
  | .zulu => ['Z']
  | .offset negative hours minutes _ _ => sign negative :: (padded 2 hours ++ ':' :: padded 2 minutes)

/-- Seconds east of UTC. -/
def Suffix.east : Suffix → Int
  | .zulu => 0
  | .offset negative hours minutes _ _ =>
    if negative then -(3600 * hours + 60 * minutes : Int) else 3600 * hours + 60 * minutes

/-- A time by RFC 3339, without fractions of a second. -/
def rfc3339 (tm : Tm) (suffix : Suffix) : List Char := strftime dateTime tm ++ suffix.text

def instant (tm : Tm) (suffix : Suffix) : Int := tm.seconds - suffix.east

section Scanning
variable {tm : Tm}

theorem padded_two (n : Nat) : padded 2 n = [Nat.digitChar (n / 10 % 10), Nat.digitChar (n % 10)] := rfl

theorem scan_offset (inRange : tm.InRange) (negative : Bool) (hour : hours ≤ 23) (minute : minutes ≤ 59) :
    scan (rfc3339 tm (.offset negative hours minutes hour minute)) =
      some ⟨tm.clock, (Suffix.offset negative hours minutes hour minute).east⟩ := by
  let date := strftime dateTime tm
  have buffer : rfc3339 tm (.offset negative hours minutes hour minute) =
      date ++ [sign negative, Nat.digitChar (hours / 10 % 10), Nat.digitChar (hours % 10), ':',
        Nat.digitChar (minutes / 10 % 10), Nat.digitChar (minutes % 10)] := by
    simp [rfc3339, Suffix.text, padded_two, date]
  have dropped : dropColon (rfc3339 tm (.offset negative hours minutes hour minute)) =
      date ++ (sign negative :: (padded 2 hours ++ (padded 2 minutes ++ []))) := by
    rw [buffer, dropColon]
    simp [padded_two, List.take_append, List.take_of_length_le]
  have signed : sign negative = '+' ∨ sign negative = '-' := by cases negative <;> simp [sign]
  have guarded : scan (rfc3339 tm (.offset negative hours minutes hour minute)) =
      strptime (dropColon (rfc3339 tm (.offset negative hours minutes hour minute))) isofmt := by
    rw [scan, if_pos]
    rw [buffer]
    simpa using signed
  rw [guarded, dropped, strptime, isofmt, readAll_dateTime inRange]
  have zone := readZone_printed negative (by omega : hours ≤ 99) minute []
  rw [readAll, Directive.read, zone]
  rfl

/-- The character before the last digit of the seconds is no colon. -/
theorem scan_zulu (inRange : tm.InRange) : scan (rfc3339 tm .zulu) = some ⟨tm.clock, 0⟩ := by
  let front := strftime (dateTime.take 10) tm
  let tens := Nat.digitChar (tm.clock .second / 10 % 10)
  have buffer : rfc3339 tm .zulu = front ++ [tens, Nat.digitChar (tm.clock .second % 10), 'Z'] := by
    simp [rfc3339, Suffix.text, strftime, dateTime, Directive.print, Field.width, padded_two, front, tens]
  have digit : tens ≠ ':' := by
    intro colon
    have digit := isDigit_digitChar (tm.clock .second / 10 % 10) (Nat.mod_lt _ (by decide))
    rw [show Nat.digitChar (tm.clock .second / 10 % 10) = ':' from colon] at digit
    exact absurd digit (by decide)
  have guarded : scan (rfc3339 tm .zulu) = strptime (rfc3339 tm .zulu) zulufmt := by
    rw [scan, if_neg]
    rw [buffer]
    simp [digit]
  rw [guarded, strptime, zulufmt, rfc3339, readAll_dateTime inRange]
  rfl

theorem scan_rfc3339 (inRange : tm.InRange) (suffix : Suffix) :
    scan (rfc3339 tm suffix) = some ⟨tm.clock, suffix.east⟩ := by
  cases suffix with
  | zulu => exact scan_zulu inRange
  | offset negative hours minutes hour minute => exact scan_offset inRange negative hour minute

end Scanning

section Instant

/-- The hours of the offset, which are cut towards zero, are added to the time. -/
theorem tvSec_eq (tm : Tm) : tvSec tm = tm.seconds + 3600 * tm.gmtoff.tdiv 3600 := by
  have letters : ∀ c ∈ "UTC".toList, c.isAlpha = true := List.all_eq_true.mp (by decide)
  obtain ⟨plain, signed⟩ := tzHours_printed letters (tm.gmtoff.tdiv 3600)
  rw [tvSec, mktime, tz]
  split
  · rename_i positive
    have hours : 0 ≤ tm.gmtoff.tdiv 3600 := Int.tdiv_nonneg (by omega) (by decide)
    rw [List.singleton_append, signed hours]
  · rw [List.nil_append, plain]

/-- A call sets the clock if there is memory, its input can be read and the time is
taken. -/
theorem set_iff (scanned : scan call.input = some tm) (rc : SrError) :
    (rpcSetDatetime rc call).set = some t ↔ call.memory = true ∧ t = tvSec tm ∧ call.settable t = true := by
  cases memory : call.memory with
  | false => simp [rpcSetDatetime, memory]
  | true =>
    simp only [rpcSetDatetime, memory, scanned, Bool.not_true, Bool.false_eq_true, if_false, true_and]
    split
    · rename_i taken
      constructor
      · rintro same
        cases same
        exact ⟨rfl, taken⟩
      · rintro ⟨rfl, -⟩
        rfl
    · rename_i refused
      constructor
      · intro same
        cases same
      · rintro ⟨rfl, taken⟩
        exact absurd taken refused

theorem tdiv_sign (east : Int) : (0 ≤ east → 0 ≤ east.tdiv 3600) ∧ (east ≤ 0 → east.tdiv 3600 ≤ 0) := by
  refine ⟨fun positive => Int.tdiv_nonneg positive (by decide), fun negative => ?_⟩
  have mirrored : 0 ≤ (-east).tdiv 3600 := Int.tdiv_nonneg (by omega) (by decide)
  rw [Int.neg_tdiv] at mirrored
  omega

/-- The local time of an instant, by the zone in force then. -/
structure Local (t : Int) (tm : Tm) : Prop where
  inRange : tm.InRange
  seconds : tm.seconds = t + tm.gmtoff
  zone : tm.gmtoff.natAbs < 86400

def printedZone (tm : Tm) (zone : tm.gmtoff.natAbs < 86400) : Suffix :=
  .offset (tm.gmtoff < 0) (tm.gmtoff.natAbs / 3600) (tm.gmtoff.natAbs / 60 % 60) (by omega) (by omega)

theorem fmtime_eq (tm : Tm) (zone : tm.gmtoff.natAbs < 86400) : fmtime tm = rfc3339 tm (printedZone tm zone) := by
  let date := strftime dateTime tm
  have buffer : strftime isofmt tm = date ++ [sign (tm.gmtoff < 0), Nat.digitChar (tm.gmtoff.natAbs / 3600 / 10 % 10),
      Nat.digitChar (tm.gmtoff.natAbs / 3600 % 10), Nat.digitChar (tm.gmtoff.natAbs / 60 % 60 / 10 % 10),
      Nat.digitChar (tm.gmtoff.natAbs / 60 % 60 % 10)] := by
    simp [strftime, isofmt, Directive.print, padded_two, date]
  have signed : sign (tm.gmtoff < 0) = '+' ∨ sign (tm.gmtoff < 0) = '-' := by
    cases decide (tm.gmtoff < 0) <;> simp [sign]
  rw [fmtime, buffer, if_pos (by simpa using signed)]
  simp [rfc3339, printedZone, Suffix.text, padded_two, List.take_append, List.drop_append, List.take_of_length_le, date]

theorem printedZone_hours (tm : Tm) (zone : tm.gmtoff.natAbs < 86400) :
    tm.gmtoff + 3600 * (printedZone tm zone).east.tdiv 3600 = 0 ↔ tm.gmtoff = 0 := by
  obtain ⟨positive, negative⟩ := tdiv_sign (printedZone tm zone).east
  simp only [printedZone, Suffix.east, decide_eq_true_eq] at positive negative ⊢
  constructor
  · intro zero
    split at zero <;> rename_i below
    · rw [if_pos below] at negative
      have := negative (by omega)
      omega
    · rw [if_neg below] at positive
      have := positive (by omega)
      omega
  · intro zero
    simp [zero]

/-- The clock is set to the instant that is given exactly if its offset is zero and the
time can be set, and set back to a time that was reported exactly if the local zone is
UTC. -/
theorem datetime_set_iff (rc : SrError) (memory : Bool) (settable : Int → Bool) :
    (∀ tm suffix, tm.InRange →
      ((rpcSetDatetime rc ⟨rfc3339 tm suffix, memory, settable⟩).set = some (instant tm suffix) ↔
        memory = true ∧ suffix.east = 0 ∧ settable (instant tm suffix) = true)) ∧
    ∀ t tm, Local t tm →
      ((rpcSetDatetime rc ⟨fmtime tm, memory, settable⟩).set = some t ↔
        memory = true ∧ tm.gmtoff = 0 ∧ settable t = true) := by
  constructor
  · intro tm suffix inRange
    rw [set_iff (scan_rfc3339 inRange suffix), tvSec_eq]
    refine and_congr_right fun _ => and_congr_left fun _ => ?_
    obtain ⟨positive, negative⟩ := tdiv_sign suffix.east
    change tm.seconds - suffix.east = tm.seconds + 3600 * suffix.east.tdiv 3600 ↔ _
    constructor
    · intro same
      by_cases east : 0 ≤ suffix.east
      · have := positive east
        omega
      · have := negative (by omega)
        omega
    · intro zero
      simp [zero]
  · intro t tm here
    have read := scan_rfc3339 here.inRange (printedZone tm here.zone)
    rw [fmtime_eq tm here.zone, set_iff read, tvSec_eq]
    refine and_congr_right fun _ => and_congr_left fun _ => ?_
    have seconds : (⟨tm.clock, (printedZone tm here.zone).east⟩ : Tm).seconds = t + tm.gmtoff := here.seconds
    rw [← printedZone_hours tm here.zone, seconds]
    dsimp only
    constructor <;> intro same <;> omega

def newYear (hour : Nat) (gmtoff : Int) : Tm where
  clock
    | .year => 2024
    | .month | .day => 1
    | .hour => hour
    | .minute | .second => 0
  gmtoff := gmtoff

theorem newYear_inRange (small : hour ≤ 23) (gmtoff : Int) : (newYear hour gmtoff).InRange := by
  intro field
  cases field <;> simp [newYear, Field.least, Field.most, small]

theorem datetime_set_iff_utc :
    (rpcSetDatetime .sys ⟨rfc3339 (newYear 12 0) .zulu, true, fun _ => true⟩).set = some 1704110400 ∧
      (rpcSetDatetime .sys ⟨fmtime (newYear 12 0), true, fun _ => true⟩).set = some 1704110400 := by
  obtain ⟨given, reported⟩ := datetime_set_iff .sys true fun _ => true
  exact ⟨(given (newYear 12 0) .zulu (newYear_inRange (by decide) 0)).mpr ⟨rfl, rfl, rfl⟩,
    (reported 1704110400 (newYear 12 0) ⟨newYear_inRange (by decide) 0, by decide, by decide⟩).mpr ⟨rfl, rfl, rfl⟩⟩

/-- Noon, two hours east of UTC, is set as 14:00 UTC and not as 10:00. -/
theorem offset_added :
    let suffix := Suffix.offset false 2 0 (by decide) (by decide)
    rfc3339 (newYear 12 0) suffix = "2024-01-01T12:00:00+02:00".toList ∧
      instant (newYear 12 0) suffix = 1704103200 ∧
      (rpcSetDatetime .sys ⟨rfc3339 (newYear 12 0) suffix, true, fun _ => true⟩).set = some 1704117600 := by
  decide +kernel

end Instant

section History

def Call.works (call : Call) : Bool :=
  match scan call.input with
  | none => false
  | some tm => call.settable (tvSec tm)

def answers : SrError → List Call → List Answer
  | _, [] => []
  | rc, call :: later =>
    let answer := rpcSetDatetime rc call
    answer :: answers answer.rc later

/-- The result tells whether the clock was set. -/
def Answer.Honest (answer : Answer) : Prop := answer.result = .ok ↔ answer.set.isSome = true

/-- A call that cannot do its work returns what an earlier one has left. -/
theorem honest_iff (rc : SrError) (call : Call) :
    (rpcSetDatetime rc call).Honest ↔ ¬(rc = .ok ∧ call.memory = true ∧ call.works = false) := by
  cases memory : call.memory with
  | false => simp [Answer.Honest, rpcSetDatetime, memory, noMemory]
  | true =>
    cases scanned : scan call.input with
    | none => simp [Answer.Honest, rpcSetDatetime, Call.works, memory, scanned]
    | some tm =>
      cases taken : call.settable (tvSec tm) with
      | false => simp [Answer.Honest, rpcSetDatetime, Call.works, memory, scanned, taken]
      | true => simp [Answer.Honest, rpcSetDatetime, Call.works, memory, scanned, taken]

theorem rc_after (rc : SrError) (call : Call) :
    (rpcSetDatetime rc call).rc = if call.memory && call.works then .ok else rc := by
  cases memory : call.memory with
  | false => simp [rpcSetDatetime, memory]
  | true =>
    cases scanned : scan call.input with
    | none => simp [rpcSetDatetime, Call.works, memory, scanned]
    | some tm =>
      cases taken : call.settable (tvSec tm) with
      | false => simp [rpcSetDatetime, Call.works, memory, scanned, taken]
      | true => simp [rpcSetDatetime, Call.works, memory, scanned, taken]

theorem honest_after_ok (calls : List Call) :
    (∀ answer ∈ answers .ok calls, answer.Honest) ↔ ∀ call ∈ calls, ¬(call.memory = true ∧ call.works = false) := by
  induction calls with
  | nil => simp [answers]
  | cons call later ih =>
    have kept : (rpcSetDatetime .ok call).rc = .ok := by rw [rc_after]; split <;> rfl
    rw [answers, List.forall_mem_cons, List.forall_mem_cons, kept, ih, honest_iff]
    simp

/-- Every call of a history reports whether it has set the clock exactly if none that
cannot do its work comes after one that could. -/
theorem answers_honest_iff (calls : List Call) :
    (∀ answer ∈ answers .sys calls, answer.Honest) ↔
      calls.Pairwise fun earlier later =>
        ¬((earlier.memory = true ∧ earlier.works = true) ∧ later.memory = true ∧ later.works = false) := by
  induction calls with
  | nil => simp [answers]
  | cons call later ih =>
    rw [answers, List.forall_mem_cons, List.pairwise_cons, honest_iff, rc_after]
    cases worked : (call.memory && call.works : Bool) with
    | true =>
      have here : call.memory = true ∧ call.works = true := Bool.and_eq_true_iff.mp worked
      rw [if_pos rfl, honest_after_ok]
      constructor
      · rintro ⟨-, fine⟩
        refine ⟨fun other member bad => fine other member bad.2, ?_⟩
        exact List.pairwise_iff_forall_sublist.mpr fun sub bad =>
          fine _ (sub.subset (List.mem_cons_of_mem _ List.mem_cons_self)) bad.2
      · rintro ⟨fine, -⟩
        exact ⟨by simp, fun other member bad => fine other member ⟨here, bad⟩⟩
    | false =>
      have idle : ¬(call.memory = true ∧ call.works = true) := fun here => by simp [here] at worked
      rw [if_neg (by decide), ih]
      constructor
      · rintro ⟨-, rest⟩
        exact ⟨fun other _ bad => idle bad.1, rest⟩
      · rintro ⟨-, rest⟩
        exact ⟨by simp, rest⟩

/-- After a call that works, one with a fraction of a second, which strptime does not
read, is answered with SR_ERR_OK. -/
theorem failure_reported_ok :
    (answers .sys [⟨"2024-01-01T12:00:00Z".toList, true, fun _ => true⟩,
        ⟨"2024-01-01T12:00:00.5Z".toList, true, fun _ => true⟩]).map (fun answer => (answer.result, answer.set)) =
      [(.ok, some 1704110400), (.ok, none)] := by
  decide +kernel

end History

end IetfSystem
