/-!
Powers of two, five and ten, and decimal numerals: the digits of a natural number, most significant
first, and the number that a run of digits spells. Zero is the one digit `0`, and no other numeral
begins with it. Nothing bounds the length of a numeral. The powers are kept apart from the general
power so that their few laws can be cited by name.
-/
namespace ExactDecimal

def pow2 (k : Nat) : Nat := Nat.pow 2 k
def pow5 (k : Nat) : Nat := Nat.pow 5 k

/-- One followed by `k` zeros. -/
def pow10 (k : Nat) : Nat := Nat.pow 10 k

@[simp] theorem pow2_zero : pow2 0 = 1 := rfl
@[simp] theorem pow10_zero : pow10 0 = 1 := rfl

theorem pow2_pos (k : Nat) : 0 < pow2 k := Nat.pow_pos (by decide)
theorem pow5_pos (k : Nat) : 0 < pow5 k := Nat.pow_pos (by decide)
theorem pow10_pos (k : Nat) : 0 < pow10 k := Nat.pow_pos (by decide)

theorem natCast_pow10_ne_zero (k : Nat) : (pow10 k : Int) ≠ 0 :=
  Int.natCast_ne_zero.mpr (Nat.ne_of_gt (pow10_pos k))

theorem pow2_succ (k : Nat) : pow2 (k + 1) = pow2 k * 2 := Nat.pow_succ 2 k
theorem pow5_succ (k : Nat) : pow5 (k + 1) = pow5 k * 5 := Nat.pow_succ 5 k
theorem pow10_succ (k : Nat) : pow10 (k + 1) = pow10 k * 10 := Nat.pow_succ 10 k

theorem pow2_add (j k : Nat) : pow2 (j + k) = pow2 j * pow2 k := Nat.pow_add 2 j k
theorem pow10_add (j k : Nat) : pow10 (j + k) = pow10 j * pow10 k := Nat.pow_add 10 j k

/-- What makes every binary fraction a decimal one. -/
theorem pow2_mul_pow5 (k : Nat) : pow2 k * pow5 k = pow10 k := (Nat.mul_pow 2 5 k).symm

/-! ## Numerals -/

/-- The digits of `n`, without leading zeros. -/
def numeral (n : Nat) : List Char := Nat.toDigits 10 n

/-- The number that a run of digits spells; the empty run spells zero. -/
def ofNumeral (digits : List Char) : Nat := Nat.ofDigitChars 10 digits 0

/-- The number that a run of digits spells, if it is at most `limit`. Reading stops with the first
digit that goes past the limit, however many digits follow. -/
def ofNumeralUpTo? (limit : Nat) (digits : List Char) : Option Nat :=
  digits.foldlM (fun n c =>
    let next := 10 * n + (c.toNat - '0'.toNat)
    if next ≤ limit then some next else none) 0

/-- How many digits `n` has; zero has one. -/
def digitCount (n : Nat) : Nat := (numeral n).length

@[simp] theorem ofNumeral_nil : ofNumeral [] = 0 := rfl

@[simp] theorem ofNumeral_numeral (n : Nat) : ofNumeral (numeral n) = n :=
  Nat.ofDigitChars_ten_toDigits

theorem isDigit_of_mem_numeral {n : Nat} {c : Char} (h : c ∈ numeral n) : c.isDigit = true :=
  Nat.isDigit_of_mem_toDigits (by decide) (by decide) h

theorem ofNumeral_append (a b : List Char) :
    ofNumeral (a ++ b) = pow10 b.length * ofNumeral a + ofNumeral b := by
  rw [ofNumeral, Nat.ofDigitChars_append, Nat.ofDigitChars_eq_ofDigitChars_zero]
  rfl

@[simp] theorem ofNumeral_zeros (k : Nat) : ofNumeral (List.replicate k '0') = 0 := by
  simp [ofNumeral, Nat.ofDigitChars_replicate_zero]

/-- Zeros in front change nothing. -/
theorem ofNumeral_zeros_append (k : Nat) (digits : List Char) :
    ofNumeral (List.replicate k '0' ++ digits) = ofNumeral digits := by
  rw [ofNumeral_append, ofNumeral_zeros, Nat.mul_zero, Nat.zero_add]

/-- Zeros behind are a power of ten. -/
theorem ofNumeral_append_zeros (digits : List Char) (k : Nat) :
    ofNumeral (digits ++ List.replicate k '0') = ofNumeral digits * pow10 k := by
  rw [ofNumeral_append, ofNumeral_zeros, List.length_replicate, Nat.add_zero, Nat.mul_comm]

/-- More digits never make the number smaller. -/
theorem le_ofDigitChars (n : Nat) (digits : List Char) : n ≤ Nat.ofDigitChars 10 digits n := by
  induction digits generalizing n with
  | nil => exact Nat.le_refl n
  | cons c digits ih =>
    rw [Nat.ofDigitChars_cons]
    have := ih (10 * n + (c.toNat - '0'.toNat))
    omega

/-- Stopping early changes nothing. -/
theorem ofNumeralUpTo?_eq (limit : Nat) (digits : List Char) :
    ofNumeralUpTo? limit digits =
      if ofNumeral digits ≤ limit then some (ofNumeral digits) else none := by
  rw [ofNumeralUpTo?, ofNumeral]
  generalize h : 0 = n
  have hn : n ≤ limit := by omega
  clear h
  induction digits generalizing n with
  | nil => simp [hn]
  | cons c digits ih =>
    rw [List.foldlM_cons, Nat.ofDigitChars_cons]
    by_cases hc : 10 * n + (c.toNat - '0'.toNat) ≤ limit
    · simp only [hc, if_true]
      exact ih _ hc
    · have := le_ofDigitChars (10 * n + (c.toNat - '0'.toNat)) digits
      simp only [hc, if_false]
      rw [if_neg (by omega)]
      rfl

theorem digitCount_pos (n : Nat) : 0 < digitCount n := Nat.length_toDigits_pos

theorem digitCount_le_iff {n k : Nat} (hk : 0 < k) : digitCount n ≤ k ↔ n < pow10 k :=
  Nat.length_toDigits_le_iff (by decide) hk

theorem lt_pow10_digitCount (n : Nat) : n < pow10 (digitCount n) :=
  (digitCount_le_iff (digitCount_pos n)).mp (Nat.le_refl _)

theorem pow10_le_of_lt_digitCount {n k : Nat} (hn : n ≠ 0) (hk : k < digitCount n) :
    pow10 k ≤ n := by
  cases k with
  | zero => exact Nat.pos_of_ne_zero hn
  | succ k =>
    have h := digitCount_le_iff (n := n) (k := k + 1) (by omega)
    omega

/-- Zeros on the right are digits. -/
theorem digitCount_mul_pow10 {n : Nat} (hn : n ≠ 0) (k : Nat) :
    digitCount (n * pow10 k) = digitCount n + k := by
  have hpos := digitCount_pos n
  have hupper : n * pow10 k < pow10 (digitCount n + k) := by
    rw [pow10_add]
    exact Nat.mul_lt_mul_of_pos_right (lt_pow10_digitCount n) (pow10_pos k)
  have hlower : pow10 (digitCount n - 1 + k) ≤ n * pow10 k := by
    rw [pow10_add]
    exact Nat.mul_le_mul_right _ (pow10_le_of_lt_digitCount hn (by omega))
  have hle := (digitCount_le_iff (by omega)).mpr hupper
  by_cases hk : digitCount n - 1 + k = 0
  · have := digitCount_pos (n * pow10 k)
    omega
  · have h := digitCount_le_iff (n := n * pow10 k) (Nat.pos_of_ne_zero hk)
    omega

end ExactDecimal
