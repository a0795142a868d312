import Mathlib

/-! Numbers read from text digit by digit, up to the first character that is no digit
of the base, and what becomes of hexadecimal digits when they are read in base ten. -/
namespace Numeral

/-- The value of a hexadecimal digit, and 256 for any other character. -/
def decodeDigit (c : Char) : Nat :=
  if c.isDigit then c.toNat - '0'.toNat
  else if 'a' ≤ c ∧ c ≤ 'f' then c.toNat - 'a'.toNat + 10
  else if 'A' ≤ c ∧ c ≤ 'F' then c.toNat - 'A'.toNat + 10
  else 256

def scan (base : Nat) : List Char → Nat → Nat
  | [], result => result
  | c :: rest, result =>
    if decodeDigit c < base then scan base rest (result * base + decodeDigit c) else result

/-- The same with words, which wrap around. -/
def scanWord (w base : Nat) : List Char → BitVec w → BitVec w
  | [], result => result
  | c :: rest, result =>
    if decodeDigit c < base then
      scanWord w base rest (result * BitVec.ofNat w base + BitVec.ofNat w (decodeDigit c))
    else result

theorem scanWord_ofNat (w base : Nat) (s : List Char) (result : Nat) :
    scanWord w base s (BitVec.ofNat w result) = BitVec.ofNat w (scan base s result) := by
  induction s generalizing result with
  | nil => rfl
  | cons c rest ih =>
    rw [scanWord, scan]
    split
    · rw [← ih, BitVec.ofNat_add, BitVec.ofNat_mul]
    · rfl

theorem decodeDigit_digitChar (small : d < 16) : decodeDigit d.digitChar = d := by
  have each : ∀ d : Fin 16, decodeDigit d.val.digitChar = d.val := by decide
  exact each ⟨d, small⟩

/-- One more digit, unless the text has ended before it. -/
theorem scan_snoc (base : Nat) (s : List Char) (c : Char) (result : Nat) :
    scan base (s ++ [c]) result = scan base s result ∨
      scan base (s ++ [c]) result = scan base s result * base + decodeDigit c := by
  induction s generalizing result with
  | nil =>
    rw [List.nil_append, scan, scan, scan]
    split
    · exact .inr rfl
    · exact .inl rfl
  | cons d rest ih =>
    rw [List.cons_append, scan, scan]
    split
    · exact ih _
    · exact .inl rfl

/-- Digits of the base are read to the end. -/
theorem scan_snoc_digits {base : Nat} {s : List Char} (digits : ∀ d ∈ s, decodeDigit d < base)
    (digit : decodeDigit c < base) (result : Nat) :
    scan base (s ++ [c]) result = scan base s result * base + decodeDigit c := by
  induction s generalizing result with
  | nil => simp [scan, digit]
  | cons d rest ih =>
    rw [List.forall_mem_cons] at digits
    rw [List.cons_append, scan, scan, if_pos digits.1, if_pos digits.1]
    exact ih digits.2 _

/-- A character that is no digit ends the number. -/
theorem scan_stop {base : Nat} (other : ¬decodeDigit c < base) (s rest : List Char) (result : Nat) :
    scan base (s ++ c :: rest) result = scan base s result := by
  induction s generalizing result with
  | nil => rw [List.nil_append, scan, scan, if_neg other]
  | cons d s ih =>
    rw [List.cons_append, scan, scan]
    split
    · exact ih _
    · rfl

section Digits
variable {base : Nat}

theorem decodeDigit_toDigits (two : 1 < base) (bound : base ≤ 16) (n : Nat) :
    ∀ d ∈ Nat.toDigits base n, decodeDigit d < base := by
  induction n using Nat.strongRecOn with
  | ind n ih =>
    by_cases small : n < base
    · rw [Nat.toDigits_of_lt_base small]
      simp [decodeDigit_digitChar (Nat.lt_of_lt_of_le small bound), small]
    · have last : n % base < base := Nat.mod_lt _ (Nat.lt_trans Nat.zero_lt_one two)
      rw [Nat.toDigits_of_base_le two (Nat.le_of_not_lt small)]
      intro d member
      rcases List.mem_append.mp member with front | end'
      · exact ih (n / base) (Nat.div_lt_self (by omega) two) d front
      · rw [List.mem_singleton.mp end', decodeDigit_digitChar (Nat.lt_of_lt_of_le last bound)]
        exact last

/-- Digits are read back. -/
theorem scan_toDigits (two : 1 < base) (bound : base ≤ 16) (n : Nat) : scan base (Nat.toDigits base n) 0 = n := by
  induction n using Nat.strongRecOn with
  | ind n ih =>
    by_cases small : n < base
    · rw [Nat.toDigits_of_lt_base small]
      simp [scan, decodeDigit_digitChar (Nat.lt_of_lt_of_le small bound), small]
    · have last : n % base < base := Nat.mod_lt _ (Nat.lt_trans Nat.zero_lt_one two)
      have value := decodeDigit_digitChar (Nat.lt_of_lt_of_le last bound)
      rw [Nat.toDigits_of_base_le two (Nat.le_of_not_lt small),
        scan_snoc_digits (decodeDigit_toDigits two bound _) (by rwa [value]), ih (n / base) (Nat.div_lt_self (by omega) two),
        value]
      exact Nat.div_add_mod' n base

end Digits

section Hexadecimal

/-- In base ten they make a smaller number. -/
theorem scan_ten_le (n : Nat) : scan 10 (Nat.toDigits 16 n) 0 ≤ n ∧ (10 ≤ n → scan 10 (Nat.toDigits 16 n) 0 < n) := by
  induction n using Nat.strongRecOn with
  | ind n ih =>
    by_cases small : n < 16
    · rw [Nat.toDigits_of_lt_base small, scan, decodeDigit_digitChar small]
      split
      · rw [scan]
        omega
      · omega
    · have last : n % 16 < 16 := Nat.mod_lt _ (by decide)
      have front := (ih (n / 16) (by omega)).1
      have next := scan_snoc 10 (Nat.toDigits 16 (n / 16)) (n % 16).digitChar 0
      rw [decodeDigit_digitChar last] at next
      rw [Nat.toDigits_of_base_le (by decide) (Nat.le_of_not_lt small)]
      omega

/-- Only a single decimal digit is read as the same number. -/
theorem scan_ten_eq_iff (n : Nat) : scan 10 (Nat.toDigits 16 n) 0 = n ↔ n < 10 := by
  constructor
  · intro same
    by_contra large
    have less := (scan_ten_le n).2 (Nat.le_of_not_lt large)
    omega
  · intro small
    have digit : n < 16 := by omega
    rw [Nat.toDigits_of_lt_base digit]
    simp [scan, decodeDigit_digitChar digit, small]

end Hexadecimal

end Numeral
