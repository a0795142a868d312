import Mathlib

/-! Broken-down time, its text, and the instant it stands for. -/
namespace Posix

inductive Field where
  | year
  | month
  | day
  | hour
  | minute
  | second
  deriving DecidableEq, Repr

namespace Field

def width : Field → Nat
  | .year => 4
  | _ => 2

def least : Field → Nat
  | .month | .day => 1
  | _ => 0

def most : Field → Nat
  | .year => 9999
  | .month => 12
  | .day => 31
  | .hour => 23
  | .minute => 59
  | .second => 60

end Field

/-- `struct tm`, with months counted from 1 and years from 0. -/
structure Tm where
  clock : Field → Nat
  gmtoff : Int

/-- Every field is in its range. -/
def Tm.InRange (tm : Tm) : Prop := ∀ field, field.least ≤ tm.clock field ∧ tm.clock field ≤ field.most

/-- Leap days before a year of the Gregorian calendar. -/
def leapsBefore (year : Int) : Int := (year - 1) / 4 - (year - 1) / 100 + (year - 1) / 400

def isLeap (year : Nat) : Bool := year % 4 = 0 && (year % 100 ≠ 0 || year % 400 = 0)

/-- Days of a year before a month. -/
def monthStart (year month : Nat) : Int :=
  [0, 0, 31, 59, 90, 120, 151, 181, 212, 243, 273, 304, 334].getD month 0 + if isLeap year && month > 2 then 1 else 0

/-- Days since 1970-01-01. -/
def epochDay (year month day : Nat) : Int :=
  365 * ((year : Int) - 1970) + leapsBefore year - leapsBefore 1970 + monthStart year month + (day - 1)

/-- Seconds from the epoch to a broken-down time, both in one zone. -/
def Tm.seconds (tm : Tm) : Int :=
  86400 * epochDay (tm.clock .year) (tm.clock .month) (tm.clock .day) + 3600 * tm.clock .hour + 60 * tm.clock .minute +
    tm.clock .second

example : epochDay 1970 1 1 = 0 ∧ epochDay 2000 3 1 = 11017 ∧ epochDay 2100 3 1 = 47541 := by decide

/-- What is added to the local time to get UTC, by a TZ value: a name, a sign and
hours. -/
def tzHours (tz : List Char) : Int :=
  match tz.dropWhile Char.isAlpha with
  | '-' :: digits => -Nat.ofDigitChars 10 digits 0
  | '+' :: digits => Nat.ofDigitChars 10 digits 0
  | digits => Nat.ofDigitChars 10 digits 0

/-- `mktime` under a TZ value. -/
def mktime (tz : List Char) (tm : Tm) : Int := tm.seconds + 3600 * tzHours tz

/-- A number in at least so many digits. -/
def padded : Nat → Nat → List Char
  | 0, _ => []
  | width + 1, n => padded width (n / 10) ++ [Nat.digitChar (n % 10)]

inductive Directive where
  | number (field : Field)
  | zone
  | literal (c : Char)
  deriving DecidableEq, Repr

/-- `%F`, `T` and `%T`. -/
def dateTime : List Directive :=
  [.number .year, .literal '-', .number .month, .literal '-', .number .day, .literal 'T', .number .hour, .literal ':',
    .number .minute, .literal ':', .number .second]

def sign (negative : Bool) : Char := if negative then '-' else '+'

def Directive.print (tm : Tm) : Directive → List Char
  | .number field => padded field.width (tm.clock field)
  | .zone => sign (tm.gmtoff < 0) :: (padded 2 (tm.gmtoff.natAbs / 3600) ++ padded 2 (tm.gmtoff.natAbs / 60 % 60))
  | .literal c => [c]

def strftime (format : List Directive) (tm : Tm) : List Char := format.flatMap (Directive.print tm)

/-- At most `width` digits. White space before them is not skipped. -/
def readNumber (width least most : Nat) (text : List Char) : Option (Nat × List Char) :=
  let digits := (text.take width).takeWhile Char.isDigit
  let value := Nat.ofDigitChars 10 digits 0
  if digits ≠ [] ∧ least ≤ value ∧ value ≤ most then some (value, text.drop digits.length) else none

/-- `+hhmm` or `-hhmm`, in seconds east of UTC. -/
def readZone : List Char → Option (Int × List Char)
  | [] => none
  | c :: text =>
    if c = '+' ∨ c = '-' then
      match readNumber 2 0 99 text with
      | none => none
      | some (hours, text) =>
        match readNumber 2 0 59 text with
        | none => none
        | some (minutes, text) =>
          let offset : Int := 3600 * hours + 60 * minutes
          some (if c = '-' then -offset else offset, text)
    else none

def Directive.read (tm : Tm) (text : List Char) : Directive → Option (Tm × List Char)
  | .number field => (readNumber field.width field.least field.most text).map fun (value, rest) =>
      ({ tm with clock := fun other => if other = field then value else tm.clock other }, rest)
  | .zone => (readZone text).map fun (offset, rest) => ({ tm with gmtoff := offset }, rest)
  | .literal c => match text with
    | d :: rest => if c = d then some (tm, rest) else none
    | [] => none

def readAll : List Directive → Tm → List Char → Option (Tm × List Char)
  | [], tm, text => some (tm, text)
  | directive :: more, tm, text => (directive.read tm text).bind fun (tm, rest) => readAll more tm rest

/-- `memset(&tm, 0, sizeof(tm))`. -/
def Tm.zero : Tm := ⟨fun _ => 0, 0⟩

/-- `strptime` into a cleared `struct tm`. It does not mind what follows. -/
def strptime (text : List Char) (format : List Directive) : Option Tm := (readAll format .zero text).map Prod.fst

section Digits

theorem padded_length (width n : Nat) : (padded width n).length = width := by
  induction width generalizing n with
  | zero => rfl
  | succ width ih => simp [padded, ih]

theorem isDigit_digitChar (d : Nat) (small : d < 10) : (Nat.digitChar d).isDigit = true := by
  revert d
  decide

theorem padded_digits (width n : Nat) : ∀ c ∈ padded width n, c.isDigit = true := by
  induction width generalizing n with
  | zero => simp [padded]
  | succ width ih =>
    intro c member
    rcases List.mem_append.mp member with front | last
    · exact ih _ c front
    · rw [List.mem_singleton.mp last]
      exact isDigit_digitChar _ (Nat.mod_lt _ (by decide))

theorem value_padded (width n : Nat) (fits : n < 10 ^ width) : Nat.ofDigitChars 10 (padded width n) 0 = n := by
  induction width generalizing n with
  | zero => simp_all [padded]
  | succ width ih =>
    have front := ih (n / 10) (by rw [Nat.pow_succ] at fits; omega)
    have last : ∀ d < 10, (Nat.digitChar d).toNat - '0'.toNat = d := by decide
    rw [padded, Nat.ofDigitChars_append, front]
    simp only [Nat.ofDigitChars_cons, Nat.ofDigitChars_nil, last _ (Nat.mod_lt n (by decide : 0 < 10))]
    omega

theorem readNumber_padded (fits : n < 10 ^ width) (wide : 0 < width) (low : least ≤ n) (high : n ≤ most)
    (rest : List Char) : readNumber width least most (padded width n ++ rest) = some (n, rest) := by
  have digits : ((padded width n ++ rest).take width).takeWhile Char.isDigit = padded width n := by
    have front : (padded width n ++ []).takeWhile Char.isDigit = padded width n ++ [].takeWhile Char.isDigit :=
      List.takeWhile_append_of_pos (padded_digits width n)
    rw [List.take_left' (padded_length width n)]
    simpa using front
  have nonempty : padded width n ≠ [] := by
    rw [← List.length_pos_iff, padded_length]
    exact wide
  simp only [readNumber, digits, value_padded width n fits]
  rw [if_pos ⟨nonempty, low, high⟩, List.drop_left' rfl]

end Digits

section ReadBack

theorem read_number (inRange : tm.InRange) (other : Tm) (field : Field) (rest : List Char) :
    Directive.read other (Directive.print tm (.number field) ++ rest) (.number field) =
      some ({ other with clock := fun f => if f = field then tm.clock field else other.clock f }, rest) := by
  obtain ⟨low, high⟩ := inRange field
  have fits : tm.clock field < 10 ^ field.width := by
    refine lt_of_le_of_lt high ?_
    cases field <;> decide
  have wide : 0 < field.width := by cases field <;> decide
  simp [Directive.read, Directive.print, readNumber_padded fits wide low high rest]

/-- A date and time is read back as it was printed. -/
theorem readAll_dateTime (inRange : tm.InRange) (more : List Directive) (rest : List Char) :
    readAll (dateTime ++ more) .zero (strftime dateTime tm ++ rest) = readAll more ⟨tm.clock, 0⟩ rest := by
  have same : (fun f : Field => if f = .second then tm.clock .second else if f = .minute then tm.clock .minute
      else if f = .hour then tm.clock .hour else if f = .day then tm.clock .day
      else if f = .month then tm.clock .month else if f = .year then tm.clock .year else 0) = tm.clock := by
    funext field
    cases field <;> rfl
  have dash : ∀ (c : Char) (other : Tm) (rest : List Char),
      Directive.read other (Directive.print tm (.literal c) ++ rest) (.literal c) = some (other, rest) := by
    intro c other rest
    simp [Directive.read, Directive.print]
  simp only [dateTime, strftime, List.flatMap_cons, List.flatMap_nil, List.append_nil, List.append_assoc,
    List.cons_append, List.nil_append, readAll, read_number inRange, dash, Option.bind_some, Tm.zero, same]

theorem readZone_printed (negative : Bool) (small : hours ≤ 99) (small' : minutes ≤ 59) (rest : List Char) :
    readZone (sign negative :: (padded 2 hours ++ (padded 2 minutes ++ rest))) =
      some (if negative then -(3600 * hours + 60 * minutes : Int) else 3600 * hours + 60 * minutes, rest) := by
  have first := readNumber_padded (by omega : hours < 10 ^ 2) (by decide) (Nat.zero_le hours) small
    (padded 2 minutes ++ rest)
  have second := readNumber_padded (by omega : minutes < 10 ^ 2) (by decide) (Nat.zero_le minutes) small' rest
  cases negative <;> simp [readZone, sign, first, second]

end ReadBack

section Zone

theorem not_isAlpha_of_isDigit {c : Char} (digit : c.isDigit = true) : c.isAlpha = false := by
  simp only [Char.isDigit, Bool.and_eq_true, decide_eq_true_eq, UInt32.le_iff_toNat_le, ge_iff_le] at digit
  have high : c.val.toNat ≤ 57 := digit.2
  rw [Bool.eq_false_iff]
  intro alpha
  simp only [Char.isAlpha, Char.isUpper, Char.isLower, Bool.or_eq_true, Bool.and_eq_true, decide_eq_true_eq,
    UInt32.le_iff_toNat_le, ge_iff_le] at alpha
  rcases alpha with upper | lower
  · have low : 65 ≤ c.val.toNat := upper.1
    omega
  · have low : 97 ≤ c.val.toNat := lower.1
    omega

/-- The digits of a number, after letters and a sign. -/
theorem tzHours_digits (letters : ∀ c ∈ name, c.isAlpha = true) (n : Nat) :
    tzHours (name ++ Nat.toDigits 10 n) = n ∧ tzHours (name ++ '+' :: Nat.toDigits 10 n) = n ∧
      tzHours (name ++ '-' :: Nat.toDigits 10 n) = -n := by
  have value : Nat.ofDigitChars 10 (Nat.toDigits 10 n) 0 = n := Nat.ofDigitChars_ten_toDigits
  refine ⟨?_, ?_, ?_⟩
  · cases digits : Nat.toDigits 10 n with
    | nil => exact absurd digits Nat.toDigits_ne_nil
    | cons c rest =>
      have member : c ∈ Nat.toDigits 10 n := by rw [digits]; exact List.mem_cons_self
      have digit : c.isDigit = true := Nat.isDigit_of_mem_toDigits (by decide) (by decide) member
      have letter : c.isAlpha = false := not_isAlpha_of_isDigit digit
      have plus : c ≠ '+' := by rintro rfl; exact absurd digit (by decide)
      have minus : c ≠ '-' := by rintro rfl; exact absurd digit (by decide)
      rw [tzHours, List.dropWhile_append_of_pos letters, List.dropWhile_cons_of_neg (by simp [letter])]
      rw [digits] at value
      split <;> simp_all
  · rw [tzHours, List.dropWhile_append_of_pos letters, List.dropWhile_cons_of_neg (by decide)]
    exact congrArg _ value
  · rw [tzHours, List.dropWhile_append_of_pos letters, List.dropWhile_cons_of_neg (by decide)]
    exact congrArg (fun m : Nat => -(m : Int)) value

/-- Hours are read back from a TZ value as they were printed, also with a plus sign. -/
theorem tzHours_printed (letters : ∀ c ∈ name, c.isAlpha = true) (hours : Int) :
    tzHours (name ++ (toString hours).toList) = hours ∧
      (0 ≤ hours → tzHours (name ++ '+' :: (toString hours).toList) = hours) := by
  cases hours with
  | ofNat n =>
    have text : (toString (Int.ofNat n)).toList = Nat.toDigits 10 n := Nat.toList_repr
    rw [text]
    exact ⟨(tzHours_digits letters n).1, fun _ => (tzHours_digits letters n).2.1⟩
  | negSucc n =>
    have text : (toString (Int.negSucc n)).toList = '-' :: Nat.toDigits 10 (n + 1) := by
      rw [Int.toString_eq_repr, Int.repr, String.toList_append, Nat.toList_repr]
      rfl
    rw [text]
    exact ⟨(tzHours_digits letters (n + 1)).2.2, fun low => absurd low (by omega)⟩

end Zone

end Posix
