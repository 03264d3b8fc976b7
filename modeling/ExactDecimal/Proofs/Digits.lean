import ExactDecimal.Proofs.Grammar
import Mathlib.Data.List.DropRight
import Mathlib.Order.Basic
/-!
Runs of digits and the numbers that they spell. The run and the number fix each other once the
length is known, and a numeral is the one run for its number that does not begin with a zero. Zeros
in front only add to the length, so a run that is long enough can be got back from its number by
putting them there again.
-/
namespace ExactDecimal

open Text

theorem ofNumeral_cons (c : Char) (digits : List Char) :
    ofNumeral (c :: digits) = pow10 digits.length * (c.toNat - '0'.toNat) + ofNumeral digits := by
  have hc : ofNumeral [c] = c.toNat - '0'.toNat := Nat.zero_add _
  rw [← List.singleton_append, ofNumeral_append, hc]

theorem digit_lt_ten {c : Char} (h : c.isDigit = true) : c.toNat - '0'.toNat < 10 := by
  have hc := (Char.isDigit_iff_toNat.mp h).2
  have hn : '9'.toNat = '0'.toNat + 9 := rfl
  omega

theorem digit_inj {c d : Char} (hc : c.isDigit = true) (hd : d.isDigit = true)
    (h : c.toNat - '0'.toNat = d.toNat - '0'.toNat) : c = d := by
  have hc := (Char.isDigit_iff_toNat.mp hc).1
  have hd := (Char.isDigit_iff_toNat.mp hd).1
  exact Char.toNat_inj.mp (by omega)

theorem digit_pos {c : Char} (hc : c.isDigit = true) (h : c ≠ '0') : 0 < c.toNat - '0'.toNat := by
  by_contra hz
  exact h (digit_inj hc rfl (by omega))

/-- The digits behind the first one are too few to make up for it. -/
theorem ofNumeral_lt {digits : List Char} (h : Digits digits) :
    ofNumeral digits < pow10 digits.length := by
  induction digits with
  | nil => exact pow10_pos 0
  | cons c digits ih =>
    obtain ⟨hc, hd⟩ := List.forall_mem_cons.mp h
    have hrest := ih hd
    rw [ofNumeral_cons, List.length_cons, pow10_succ]
    calc
      _ < pow10 digits.length * (c.toNat - '0'.toNat) + pow10 digits.length := by omega
      _ = pow10 digits.length * (c.toNat - '0'.toNat + 1) := (Nat.mul_succ _ _).symm
      _ ≤ pow10 digits.length * 10 := Nat.mul_le_mul_left _ (digit_lt_ten hc)

theorem pow10_le_ofNumeral {c : Char} {digits : List Char} (hc : c.isDigit = true) (h : c ≠ '0') :
    pow10 digits.length ≤ ofNumeral (c :: digits) := by
  have hpos := digit_pos hc h
  rw [ofNumeral_cons]
  exact Nat.le_trans (Nat.le_mul_of_pos_right _ hpos) (Nat.le_add_right _ _)

theorem ofNumeral_eq_zero_iff {digits : List Char} (h : Digits digits) :
    ofNumeral digits = 0 ↔ ∀ c ∈ digits, c = '0' := by
  constructor
  · intro hz
    induction digits with
    | nil => exact fun _ hc => nomatch hc
    | cons c digits ih =>
      obtain ⟨hc, hd⟩ := List.forall_mem_cons.mp h
      have hzero : c = '0' := by
        by_contra hne
        have hlower : pow10 digits.length ≤ ofNumeral (c :: digits) := pow10_le_ofNumeral hc hne
        have := pow10_pos digits.length
        omega
      rw [ofNumeral_cons] at hz
      exact List.forall_mem_cons.mpr ⟨hzero, ih hd (Nat.eq_zero_of_add_eq_zero_left hz)⟩
  · intro hz
    rw [List.eq_replicate_of_mem hz, ofNumeral_zeros]

/-- Runs of one length differ if their numbers do not. -/
theorem ofNumeral_inj {a b : List Char} (ha : Digits a) (hb : Digits b)
    (hlen : a.length = b.length) (h : ofNumeral a = ofNumeral b) : a = b := by
  induction a generalizing b with
  | nil => exact (List.length_eq_zero_iff.mp hlen.symm).symm
  | cons c a ih =>
    cases b with
    | nil => exact nomatch hlen
    | cons d b =>
      obtain ⟨hc, ha⟩ := List.forall_mem_cons.mp ha
      obtain ⟨hd, hb⟩ := List.forall_mem_cons.mp hb
      have hlen : a.length = b.length := Nat.succ.inj hlen
      have hra := ofNumeral_lt ha
      have hrb := ofNumeral_lt hb
      rw [ofNumeral_cons, ofNumeral_cons, ← hlen] at h
      rw [← hlen] at hrb
      -- division by the power in front tells the first digit from the others
      have hrest : ofNumeral a = ofNumeral b := by
        have := congrArg (· % pow10 a.length) h
        simpa only [Nat.mul_add_mod, Nat.mod_eq_of_lt hra, Nat.mod_eq_of_lt hrb] using this
      have hfirst : c.toNat - '0'.toNat = d.toNat - '0'.toNat :=
        Nat.eq_of_mul_eq_mul_left (pow10_pos a.length) (by omega)
      rw [digit_inj hc hd hfirst, ih ha hb hlen hrest]

/-! ## Numerals among the runs of digits -/

/-- A numeral begins with a zero only if it is that of zero. -/
theorem head?_numeral {n : Nat} (h : n ≠ 0) : (numeral n).head? ≠ some '0' := by
  intro hz
  obtain ⟨rest, hr⟩ := List.head?_eq_some_iff.mp hz
  have hd : Digits rest := fun c hc => digits_numeral n c (hr ▸ List.mem_cons_of_mem _ hc)
  have hn : n = ofNumeral rest := by
    have hs := ofNumeral_numeral n
    rw [hr, ofNumeral_cons, Nat.sub_self, Nat.mul_zero, Nat.zero_add] at hs
    exact hs.symm
  have hcount : digitCount n = rest.length + 1 := by rw [digitCount, hr, List.length_cons]
  have hlower := pow10_le_of_lt_digitCount h (k := rest.length) (by omega)
  have hupper := ofNumeral_lt hd
  omega

/-- Without a zero in front every digit counts. -/
theorem digitCount_ofNumeral {digits : List Char} (h : Digits digits) (hne : digits ≠ [])
    (hz : digits.head? ≠ some '0') : digitCount (ofNumeral digits) = digits.length := by
  cases digits with
  | nil => exact absurd rfl hne
  | cons c rest =>
    have hc : c ≠ '0' := fun e => hz (congrArg some e)
    have hlower : pow10 rest.length ≤ ofNumeral (c :: rest) :=
      pow10_le_ofNumeral (h c List.mem_cons_self) hc
    have hle := (digitCount_le_iff (Nat.succ_pos rest.length)).mpr (ofNumeral_lt h)
    have hlt := lt_pow10_digitCount (ofNumeral (c :: rest))
    have hge : rest.length < digitCount (ofNumeral (c :: rest)) :=
      (Nat.pow_lt_pow_iff_right (by decide)).mp (Nat.lt_of_le_of_lt hlower hlt)
    exact Nat.le_antisymm hle hge

/-- Zeros on the right of a number are the last digits of its numeral. -/
theorem numeral_mul_pow10 {n : Nat} (h : n ≠ 0) (k : Nat) :
    numeral (n * pow10 k) = numeral n ++ List.replicate k '0' := by
  apply ofNumeral_inj (digits_numeral _) ((digits_numeral n).append (digits_replicate_zero k))
  · rw [List.length_append, List.length_replicate]
    exact digitCount_mul_pow10 h k
  · rw [ofNumeral_append_zeros, ofNumeral_numeral, ofNumeral_numeral]

/-! ## Padding -/

/-- The numeral of `n` behind the zeros that make it one digit longer than `places`, if it is not as
long as that already. -/
def padded (n places : Nat) : List Char :=
  List.replicate (places + 1 - digitCount n) '0' ++ numeral n

theorem padded_of_lt {n places : Nat} (h : places < digitCount n) : padded n places = numeral n := by
  rw [padded, Nat.sub_eq_zero_of_le h, List.replicate_zero, List.nil_append]

theorem digits_padded (n places : Nat) : Digits (padded n places) :=
  (digits_replicate_zero _).append (digits_numeral n)

theorem length_padded (n places : Nat) :
    (padded n places).length = max (places + 1) (digitCount n) := by
  rw [padded, List.length_append, List.length_replicate, ← digitCount]
  omega

@[simp] theorem ofNumeral_padded (n places : Nat) : ofNumeral (padded n places) = n := by
  rw [padded, ofNumeral_zeros_append, ofNumeral_numeral]

/-- A run of the right length is the padded numeral of its number. -/
theorem padded_ofNumeral {digits : List Char} (h : Digits digits) {places : Nat}
    (hlen : digits.length = max (places + 1) (digitCount (ofNumeral digits))) :
    padded (ofNumeral digits) places = digits :=
  ofNumeral_inj (digits_padded _ _) h ((length_padded _ _).trans hlen.symm) (ofNumeral_padded _ _)

/-! ## Significant digits -/

/-- What is left of a run when the zeros at either end are taken off. -/
def significant (digits : List Char) : List Char :=
  (digits.dropWhile (· = '0')).rdropWhile (· = '0')

theorem exists_zeros_significant (digits : List Char) :
    ∃ j k, digits = List.replicate j '0' ++ (significant digits ++ List.replicate k '0') := by
  refine ⟨(digits.takeWhile (· = '0')).length,
    ((digits.dropWhile (· = '0')).rtakeWhile (· = '0')).length, ?_⟩
  have hfront : digits.takeWhile (· = '0') =
      List.replicate (digits.takeWhile (· = '0')).length '0' :=
    List.eq_replicate_of_mem fun c hc => by simpa using List.mem_takeWhile_imp hc
  have hback : (digits.dropWhile (· = '0')).rtakeWhile (· = '0') =
      List.replicate ((digits.dropWhile (· = '0')).rtakeWhile (· = '0')).length '0' :=
    List.eq_replicate_of_mem fun c hc => by simpa using List.mem_rtakeWhile_imp hc
  rw [← hfront, ← hback, significant, List.rdropWhile_append_rtakeWhile,
    List.takeWhile_append_dropWhile]

theorem digits_significant {digits : List Char} (h : Digits digits) :
    Digits (significant digits) := by
  obtain ⟨j, k, hd⟩ := exists_zeros_significant digits
  rw [hd] at h
  exact h.right.left

/-- The zeros behind the significant digits are a power of ten, those in front are nothing. -/
theorem exists_ofNumeral_eq_significant (digits : List Char) :
    ∃ k, ofNumeral digits = ofNumeral (significant digits) * pow10 k := by
  obtain ⟨j, k, hd⟩ := exists_zeros_significant digits
  refine ⟨k, ?_⟩
  conv_lhs => rw [hd]
  rw [ofNumeral_zeros_append, ofNumeral_append_zeros]

theorem length_significant_le (digits : List Char) : (significant digits).length ≤ digits.length :=
  (List.rdropWhile_prefix _ _).length_le.trans (List.dropWhile_suffix _).length_le

theorem significant_append_zeros (digits : List Char) (k : Nat) :
    significant (digits ++ List.replicate k '0') = significant digits := by
  induction k with
  | zero => rw [List.replicate_zero, List.append_nil]
  | succ k ih =>
    rw [List.replicate_succ', ← List.append_assoc, ← ih, significant, List.dropWhile_append]
    split
    · rename_i hempty
      rw [significant, List.isEmpty_iff.mp hempty]
      rfl
    · exact List.rdropWhile_concat_pos _ _ _ rfl

theorem head?_significant (digits : List Char) : (significant digits).head? ≠ some '0' := by
  intro hz
  obtain ⟨rest, hr⟩ := List.head?_eq_some_iff.mp hz
  obtain ⟨zeros, hp⟩ : significant digits <+: digits.dropWhile (· = '0') := List.rdropWhile_prefix _ _
  have hfirst := List.head?_dropWhile_not (fun c => decide (c = '0')) digits
  rw [← hp, hr] at hfirst
  exact Bool.noConfusion (hfirst : true = false)

/-- The significant digits of a numeral are the digits of a number. -/
theorem exists_numeral_significant {n : Nat} (h : n ≠ 0) :
    ∃ m k, n = m * pow10 k ∧ digitCount m = (significant (numeral n)).length := by
  obtain ⟨k, hk⟩ := exists_ofNumeral_eq_significant (numeral n)
  rw [ofNumeral_numeral] at hk
  have hne : significant (numeral n) ≠ [] := by
    intro hnil
    rw [hnil, ofNumeral_nil, Nat.zero_mul] at hk
    exact h hk
  exact ⟨_, k, hk, digitCount_ofNumeral (digits_significant (digits_numeral n)) hne
    (head?_significant _)⟩

theorem length_significant_mul_pow10_le {n : Nat} (h : n ≠ 0) (k : Nat) :
    (significant (numeral (n * pow10 k))).length ≤ digitCount n := by
  rw [numeral_mul_pow10 h, significant_append_zeros]
  exact length_significant_le _

end ExactDecimal
