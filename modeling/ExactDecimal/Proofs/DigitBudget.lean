import ExactDecimal.Proofs.Congruence
import ExactDecimal.Proofs.Digits
import ExactDecimal.Proofs.Modes
/-!
Rounding to a digit budget is correctly rounded and ends. A decimal with more digits than the
budget is rounded, by its mode, to a multiple of the place at which the kept digits end. Between
two powers of ten no mode goes past either, so the result has as many digits as the budget, or it
is the power of ten above. That one has a digit too many, which is a zero: the second cut takes it
off and changes no value. The whole fails only for a digit that the mode refuses to lose, or for a
scale below the least one.
-/
namespace ExactDecimal

theorem digitCount_eq_of_bounds {n k : Nat} (hk : 0 < k) (hl : pow10 (k - 1) ≤ n)
    (hu : n < pow10 k) : digitCount n = k := by
  have hle := (digitCount_le_iff hk).mpr hu
  have hlt : pow10 (k - 1) < pow10 (digitCount n) :=
    Nat.lt_of_le_of_lt hl (lt_pow10_digitCount n)
  have := (Nat.pow_lt_pow_iff_right (by decide)).mp hlt
  omega

theorem digitCount_pow10 (k : Nat) : digitCount (pow10 k) = k + 1 := by
  have h := digitCount_mul_pow10 one_ne_zero k
  rw [one_mul] at h
  rw [h, add_comm]
  rfl

namespace Decimal

open Text
open RoundingMode (roundQuotient_eq_ok_iff roundQuotient_eq_error_iff takes_intCast takes_unique
  le_natAbs_of_takes natAbs_le_of_takes)

/-! ## The digits that are taken off -/

/-- The digits of the magnitude behind the first `kept` ones. -/
def digitsBehind (d : Decimal) (kept : Nat) : List Char := (numeral d.magnitude.natAbs).drop kept

theorem forall_digitsBehind_iff {d : Decimal} {kept : Nat} :
    (∀ c ∈ d.digitsBehind kept, c = '0') ↔ (pow10 (d.precision - kept) : Int) ∣ d.magnitude := by
  have hlen : (d.digitsBehind kept).length = d.precision - kept := List.length_drop
  have hd : Digits (d.digitsBehind kept) := fun c hc =>
    digits_numeral _ c (List.mem_of_mem_drop hc)
  have hsum : d.magnitude.natAbs = pow10 (d.precision - kept) *
      ofNumeral ((numeral d.magnitude.natAbs).take kept) + ofNumeral (d.digitsBehind kept) := by
    rw [← hlen, ← ofNumeral_append, digitsBehind, List.take_append_drop, ofNumeral_numeral]
  have hlt := ofNumeral_lt hd
  rw [hlen] at hlt
  rw [← ofNumeral_eq_zero_iff hd, Int.natCast_dvd, hsum, Nat.dvd_add_right (Nat.dvd_mul_right _ _)]
  constructor
  · intro hz
    rw [hz]
    exact Nat.dvd_zero _
  · intro hdvd
    exact Nat.eq_zero_of_dvd_of_lt hdvd hlt

/-- Whether the mode refuses to take off the digits that are too many: it is the one that loses no
digit, and one of them is not zero. Too many digits to count are not looked at. -/
def Refuses (d : Decimal) (context : Context) : Prop :=
  context.mode = .unnecessary ∧ (∃ c ∈ d.digitsBehind context.precision, c ≠ '0') ∧
    d.precision - context.precision < 4294967296

/-- The same for a cut, where a digit that is not zero shows as a rest. -/
def RefusesCut (d : Decimal) (chop : Nat) (mode : RoundingMode) : Prop :=
  mode = .unnecessary ∧ ¬ (pow10 chop : Int) ∣ d.magnitude ∧ chop < 4294967296

theorem refuses_iff {context : Context} {d : Decimal} : d.Refuses context ↔
    d.RefusesCut (d.precision - context.precision) context.mode := by
  rw [Refuses, RefusesCut, ← forall_digitsBehind_iff]
  simp only [not_forall, exists_prop]

/-! ## One cut -/

section Cut

variable {d : Decimal} {chop : Nat} {mode : RoundingMode}

theorem dropDigits_eq_ok_iff (hc : chop < 4294967296) {cut : Decimal} :
    d.dropDigits chop mode = .ok cut ↔
      mode.Takes (d.value * 10 ^ (d.scale - chop)) cut.magnitude ∧ cut.scale = d.scale - chop := by
  rw [dropDigits_of_lt d hc, ← cast_dropped_quotient,
    ← roundQuotient_eq_ok_iff (natCast_pow10_ne_zero chop)]
  constructor
  · intro h
    obtain ⟨n, hn, h⟩ := bind_eq_ok h
    obtain ⟨rfl, hs⟩ := ofParts_eq_ok_iff.mp h
    exact ⟨hn, hs⟩
  · rintro ⟨hn, hs⟩
    rw [hn, ok_bind, ← hs, ofParts_self]

/-- Everything that a cut can come to. -/
theorem dropDigits_cases (d : Decimal) (chop : Nat) (mode : RoundingMode) :
    d.RefusesCut chop mode ∧ d.dropDigits chop mode = .error .roundingNecessary ∨
      ¬ d.RefusesCut chop mode ∧
        (d.scale - chop < -2147483648 ∧ d.dropDigits chop mode = .error .scaleOverflow ∨
          chop < 4294967296 ∧ ∃ cut, d.dropDigits chop mode = .ok cut) := by
  have hd := d.scale_fits
  by_cases hc : chop < 4294967296
  · rw [dropDigits_of_lt d hc]
    cases hq : mode.roundQuotient d.magnitude (pow10 chop) with
    | error e =>
      obtain ⟨rfl, hm, hdvd⟩ := (roundQuotient_eq_error_iff (natCast_pow10_ne_zero chop)).mp hq
      exact .inl ⟨⟨hm, hdvd, hc⟩, rfl⟩
    | ok n =>
      refine .inr ⟨?_, ?_⟩
      · rintro ⟨hm, hdvd, -⟩
        have he := (roundQuotient_eq_error_iff (natCast_pow10_ne_zero chop)).mpr ⟨rfl, hm, hdvd⟩
        exact nomatch he.symm.trans hq
      · rw [ok_bind]
        by_cases hs : ScaleFits (d.scale - chop)
        · exact .inr ⟨hc, _, ofParts_of_fits hs n⟩
        · exact .inl ⟨by omega, ofParts_of_not_fits hs n⟩
  · exact .inr ⟨fun h => hc h.2.2, .inl ⟨by omega, dropDigits_of_le d (by omega) mode⟩⟩

/-- A cut that takes only zeros off keeps the value, and it fails for no other reason than the
scale. -/
theorem dropDigits_of_dvd (hc : chop < 4294967296) (hdvd : (pow10 chop : Int) ∣ d.magnitude) :
    d.dropDigits chop mode = ofParts (d.magnitude / pow10 chop) (d.scale - chop) := by
  have hr : d.magnitude.tmod (pow10 chop) = 0 := Int.tmod_eq_zero_of_dvd hdvd
  rw [dropDigits_of_lt d hc, RoundingMode.roundQuotient_exact mode hr, ok_bind,
    Int.tdiv_eq_ediv_of_dvd hdvd]

theorem value_of_dropDigits_of_dvd (hc : chop < 4294967296)
    (hdvd : (pow10 chop : Int) ∣ d.magnitude) {cut : Decimal}
    (h : d.dropDigits chop mode = .ok cut) : cut.value = d.value := by
  rw [dropDigits_of_dvd hc hdvd] at h
  obtain ⟨hm, hs⟩ := ofParts_eq_ok_iff.mp h
  have hk : (d.scale - cut.scale).toNat = chop := by omega
  rw [value_eq_iff (by omega) le_rfl, magnitudeAt_self, magnitudeAt, hk, hm,
    Int.ediv_mul_cancel hdvd]

end Cut

/-! ## The cut to the budget -/

/-- The exponent of the place at which the kept digits end. -/
def lastPlace (d : Decimal) (context : Context) : Int :=
  (d.precision - context.precision : Nat) - d.scale

theorem value_div_lastPlace (d : Decimal) (context : Context) :
    d.value / 10 ^ d.lastPlace context =
      d.value * 10 ^ (d.scale - (d.precision - context.precision : Nat)) := by
  rw [lastPlace, ← neg_sub, zpow_neg, div_inv_eq_mul]

/-- Whether the rounding goes up to one digit more than the budget. -/
def Carries (d : Decimal) (context : Context) : Prop :=
  ∃ n, context.mode.Takes (d.value / 10 ^ d.lastPlace context) n ∧
    n.natAbs = pow10 context.precision

/-- Whether it does is seen from the quotient that is rounded. -/
theorem carries_iff {d : Decimal} {context : Context} : d.Carries context ↔
    ∃ n, context.mode.roundQuotient d.magnitude (pow10 (d.precision - context.precision)) = .ok n ∧
      n.natAbs = pow10 context.precision := by
  simp only [Carries, value_div_lastPlace, ← cast_dropped_quotient,
    roundQuotient_eq_ok_iff (natCast_pow10_ne_zero _)]

instance (d : Decimal) (context : Context) : Decidable (d.Carries context) :=
  match h : context.mode.roundQuotient d.magnitude
      (pow10 (d.precision - context.precision)) with
  | .ok n => decidable_of_iff (n.natAbs = pow10 context.precision) (by simp [carries_iff, h])
  | .error e => isFalse (by simp [carries_iff, h])

/-- The scale of the rounded decimal: a carry takes one more digit off. -/
def roundedScale (d : Decimal) (context : Context) : Int :=
  d.scale - (d.precision - context.precision : Nat) - if d.Carries context then 1 else 0

section Budget

variable {d : Decimal} {context : Context} (h0 : context.precision ≠ 0)
  (hd : context.precision < d.precision)

include hd

theorem magnitude_ne_zero_of_lt (h0 : context.precision ≠ 0) : d.magnitude ≠ 0 := by
  intro hz
  have := precision_of_zero hz
  omega

include h0

theorem abs_value_div_bounds :
    (pow10 (context.precision - 1) : ℚ) ≤ |d.value / 10 ^ d.lastPlace context| ∧
      |d.value / 10 ^ d.lastPlace context| < pow10 context.precision := by
  have hz := Int.natAbs_ne_zero.mpr (magnitude_ne_zero_of_lt hd h0)
  have hk : (0 : ℚ) < pow10 (d.precision - context.precision) := Nat.cast_pos.mpr (pow10_pos _)
  have hl : pow10 (d.precision - 1) ≤ d.magnitude.natAbs :=
    pow10_le_of_lt_digitCount hz (Nat.sub_one_lt d.precision_pos.ne')
  have hu : d.magnitude.natAbs < pow10 d.precision := lt_pow10_digitCount _
  rw [value_div_lastPlace, ← cast_dropped_quotient, abs_div, Int.cast_natCast, Nat.abs_cast,
    ← Int.cast_abs, ← Nat.cast_natAbs, le_div_iff₀ hk, div_lt_iff₀ hk, ← Nat.cast_mul,
    ← Nat.cast_mul, Nat.cast_le, Nat.cast_lt, ← pow10_add, ← pow10_add]
  have hlower : context.precision - 1 + (d.precision - context.precision) = d.precision - 1 := by
    omega
  have hupper : context.precision + (d.precision - context.precision) = d.precision := by omega
  rw [hlower, hupper]
  exact ⟨hl, hu⟩

/-- As many digits as the budget has, or the power of ten above. -/
theorem digitCount_of_takes {n : Int}
    (h : context.mode.Takes (d.value / 10 ^ d.lastPlace context) n) :
    n.natAbs ≠ pow10 context.precision ∧ digitCount n.natAbs = context.precision ∨
      n.natAbs = pow10 context.precision ∧ digitCount n.natAbs = context.precision + 1 := by
  obtain ⟨hl, hu⟩ := abs_value_div_bounds h0 hd
  have hl := le_natAbs_of_takes h hl
  have hu := natAbs_le_of_takes h hu.le
  by_cases hn : n.natAbs = pow10 context.precision
  · exact .inr ⟨hn, by rw [hn, digitCount_pow10]⟩
  · exact .inl ⟨hn, digitCount_eq_of_bounds (Nat.pos_of_ne_zero h0) hl (Nat.lt_of_le_of_ne hu hn)⟩

end Budget

/-! ## The second cut -/

section Carry

variable {cut : Decimal} {context : Context} (h0 : context.precision ≠ 0)
  (hc : cut.magnitude.natAbs = pow10 context.precision)

include hc

theorem precision_of_carry : cut.precision = context.precision + 1 := by
  rw [precision, hc, digitCount_pow10]

theorem chop_of_carry : cut.precision - context.precision = 1 := by
  rw [precision_of_carry hc, Nat.add_sub_cancel_left]

include h0

/-- The digit that a carry leaves too many is a zero. -/
theorem ten_dvd_of_carry : (pow10 (cut.precision - context.precision) : Int) ∣ cut.magnitude := by
  rw [chop_of_carry hc, Int.natCast_dvd, hc]
  exact Nat.pow_dvd_pow 10 (Nat.pos_of_ne_zero h0)

/-- The second cut changes no value, and what it gives is within the budget. -/
theorem dropDigits_of_carry {mode : RoundingMode} {r : Decimal}
    (h : cut.dropDigits (cut.precision - context.precision) mode = .ok r) :
    r.value = cut.value ∧ r.scale = cut.scale - 1 ∧ r.precision = context.precision := by
  have hdvd := ten_dvd_of_carry h0 hc
  have hv := value_of_dropDigits_of_dvd (by rw [chop_of_carry hc]; decide) hdvd h
  rw [chop_of_carry hc] at h hdvd
  rw [dropDigits_of_dvd (by decide) hdvd] at h
  obtain ⟨hm, hs⟩ := ofParts_eq_ok_iff.mp h
  refine ⟨hv, hs, ?_⟩
  have hr : r.magnitude.natAbs = pow10 (context.precision - 1) := by
    rw [hm, Int.natAbs_ediv_of_dvd hdvd, hc, Int.natAbs_natCast]
    exact Nat.pow_div (Nat.pos_of_ne_zero h0) (by decide)
  rw [precision, hr, digitCount_pow10]
  omega

theorem dropDigits_of_carry_error {mode : RoundingMode} {e : ArithmeticError}
    (h : cut.dropDigits (cut.precision - context.precision) mode = .error e) :
    e = .scaleOverflow ∧ cut.scale - 1 < -2147483648 := by
  have hdvd := ten_dvd_of_carry h0 hc
  rw [chop_of_carry hc] at h hdvd
  rw [dropDigits_of_dvd (by decide) hdvd] at h
  have hcut := cut.scale_fits
  by_cases hs : ScaleFits (cut.scale - (1 : Nat))
  · rw [ofParts_of_fits hs] at h
    exact nomatch h
  · rw [ofParts_of_not_fits hs] at h
    cases h
    exact ⟨rfl, by omega⟩

end Carry

/-! ## Rounding -/

section Round

variable {d : Decimal} {context : Context} (h0 : context.precision ≠ 0)
  (hd : context.precision < d.precision)

include h0 hd

/-- Everything that the rounding of a decimal beyond the budget can come to. -/
theorem round_cases :
    d.Refuses context ∧ d.round context = .error .roundingNecessary ∨
    ¬ d.Refuses context ∧
      (d.roundedScale context < -2147483648 ∧ d.round context = .error .scaleOverflow ∨
        ∃ r, d.round context = .ok r ∧ r.precision = context.precision ∧
          r.scale = d.roundedScale context ∧
          ∃ n : Int, context.mode.Takes (d.value / 10 ^ d.lastPlace context) n ∧
            r.value = n * 10 ^ d.lastPlace context) := by
  rw [round_of_lt h0 hd, refuses_iff]
  obtain ⟨hr, h⟩ | ⟨hr, ⟨hs, h⟩ | ⟨hc, cut, h⟩⟩ :=
    d.dropDigits_cases (d.precision - context.precision) context.mode
  · exact .inl ⟨hr, by rw [h, error_bind]⟩
  · refine .inr ⟨hr, .inl ⟨?_, by rw [h, error_bind]⟩⟩
    unfold roundedScale
    split <;> omega
  · refine .inr ⟨hr, ?_⟩
    rw [h, ok_bind]
    obtain ⟨htakes, hscale⟩ := (dropDigits_eq_ok_iff hc).mp h
    rw [← value_div_lastPlace] at htakes
    have hvalue : cut.value = cut.magnitude * 10 ^ d.lastPlace context := by
      rw [value, hscale, lastPlace, neg_sub]
    obtain ⟨hne, hp⟩ | ⟨hcarry, hp⟩ := digitCount_of_takes h0 hd htakes
    · have hnot : ¬ d.Carries context := by
        rintro ⟨n, hn, hcarry⟩
        exact hne (takes_unique htakes hn ▸ hcarry)
      refine .inr ⟨cut, if_pos hp.le, hp, ?_, cut.magnitude, htakes, hvalue⟩
      rw [hscale, roundedScale, if_neg hnot, sub_zero]
    · have hcarries : d.Carries context := ⟨_, htakes, hcarry⟩
      have hscale : d.roundedScale context = cut.scale - 1 := by
        rw [hscale, roundedScale, if_pos hcarries]
      rw [if_neg (by rw [precision, hp]; omega), hscale]
      cases hsecond : cut.dropDigits (cut.precision - context.precision) context.mode with
      | error e =>
        obtain ⟨rfl, hs⟩ := dropDigits_of_carry_error h0 hcarry hsecond
        exact .inl ⟨hs, rfl⟩
      | ok r =>
        obtain ⟨hv, hs, hp⟩ := dropDigits_of_carry h0 hcarry hsecond
        exact .inr ⟨r, rfl, hp, hs, cut.magnitude, htakes, hv.trans hvalue⟩

/-- What is rounded has as many digits as the budget, at the scale that was to be expected. -/
theorem round_spec {r : Decimal} (h : d.round context = .ok r) :
    r.precision = context.precision ∧ r.scale = d.roundedScale context ∧
      ∃ n : Int, context.mode.Takes (d.value / 10 ^ d.lastPlace context) n ∧
        r.value = n * 10 ^ d.lastPlace context := by
  obtain ⟨-, he⟩ | ⟨-, ⟨-, he⟩ | ⟨s, hs, hspec⟩⟩ := round_cases h0 hd
  · exact nomatch he.symm.trans h
  · exact nomatch he.symm.trans h
  · obtain rfl : s = r := Except.ok.inj (hs.symm.trans h)
    exact hspec

theorem carry_of_cut {cut : Decimal}
    (h : d.dropDigits (d.precision - context.precision) context.mode = .ok cut)
    (hc : context.precision < cut.precision) :
    cut.magnitude.natAbs = pow10 context.precision := by
  have hne : d.dropDigits (d.precision - context.precision) context.mode ≠
      .error .scaleOverflow := by simp [h]
  have hchop := chop_lt_of_dropDigits hne
  obtain ⟨htakes, -⟩ := (dropDigits_eq_ok_iff hchop).mp h
  rw [← value_div_lastPlace] at htakes
  obtain ⟨-, hp⟩ | ⟨hcarry, -⟩ := digitCount_of_takes h0 hd htakes
  · rw [precision, hp] at hc
    exact absurd hc (Nat.lt_irrefl _)
  · exact hcarry

/-- What follows a cut is the rounding of what the cut left. -/
theorem round_eq_round_cut {cut : Decimal}
    (h : d.dropDigits (d.precision - context.precision) context.mode = .ok cut) :
    d.round context = cut.round context := by
  rw [round_of_lt h0 hd, h, ok_bind]
  by_cases hc : cut.precision ≤ context.precision
  · rw [if_pos hc, round_eq_self (.inr hc)]
  · have hlt := Nat.lt_of_not_le hc
    have hcarry := carry_of_cut h0 hd h hlt
    rw [if_neg hc, round_of_lt h0 hlt]
    cases hsecond : cut.dropDigits (cut.precision - context.precision) context.mode with
    | error e => rfl
    | ok r =>
      obtain ⟨-, -, hp⟩ := dropDigits_of_carry h0 hcarry hsecond
      rw [ok_bind, if_pos hp.le]

end Round

/-! ## Calls -/

theorem eq_round_of_roundCalls {context : Context} {calls : Nat} {d : Decimal}
    {result : Except ArithmeticError Decimal} (h : RoundCalls context calls d result) :
    result = d.round context := by
  induction h with
  | within h => rw [round_eq_self h]
  | failed h0 hd h => rw [round_of_lt h0 hd, h, error_bind]
  | cut h0 hd h hc => rw [round_of_lt h0 hd, h, ok_bind, if_pos hc]
  | again h0 hd h hc hr ih => rw [round_eq_round_cut h0 hd h, ih]

/-- A second call is all that a carry takes. -/
theorem exists_roundCalls (d : Decimal) (context : Context) :
    ∃ calls, calls ≤ 2 ∧ RoundCalls context calls d (d.round context) := by
  by_cases h0 : context.precision = 0
  · rw [round_eq_self (.inl h0)]
    exact ⟨1, by decide, .within (.inl h0)⟩
  obtain hd | hd := le_or_gt d.precision context.precision
  · rw [round_eq_self (.inr hd)]
    exact ⟨1, by decide, .within (.inr hd)⟩
  cases h : d.dropDigits (d.precision - context.precision) context.mode with
  | error e =>
    rw [round_of_lt h0 hd, h]
    exact ⟨1, by decide, .failed h0 hd h⟩
  | ok cut =>
    rw [round_eq_round_cut h0 hd h]
    obtain hc | hc := le_or_gt cut.precision context.precision
    · rw [round_eq_self (.inr hc)]
      exact ⟨1, by decide, .cut h0 hd h hc⟩
    have hcarry := carry_of_cut h0 hd h hc
    refine ⟨2, le_rfl, .again h0 hd h hc ?_⟩
    cases hsecond : cut.dropDigits (cut.precision - context.precision) context.mode with
    | error e =>
      rw [round_of_lt h0 hc, hsecond]
      exact .failed h0 hc hsecond
    | ok r =>
      obtain ⟨-, -, hp⟩ := dropDigits_of_carry h0 hcarry hsecond
      rw [round_eq_round_cut h0 hc hsecond, round_eq_self (.inr hp.le)]
      exact .cut h0 hc hsecond hp.le

/-- A decimal within the budget, or without one, is returned as it is. Any other that is rounded
has as many digits as the budget, and it is the integer that the mode takes for the exact value in
units of the last place that is kept; its scale is lower by the digits that are taken off, and by
one more if the rounding carries. It fails exactly if the mode refuses to lose a digit that is not
zero, and otherwise if that scale is below the least one. What a carry has left too long is rounded
by a second call, which only takes a zero off and is the last one. -/
theorem round_correctly_rounded (d : Decimal) (context : Context) :
    (context.precision = 0 ∨ d.precision ≤ context.precision → d.round context = .ok d) ∧
    (context.precision ≠ 0 → context.precision < d.precision →
      (∀ r, d.round context = .ok r →
        r.precision = context.precision ∧
        r.scale = d.roundedScale context ∧
        ∃ n : Int, (∀ m, context.mode.Takes (d.value / 10 ^ d.lastPlace context) m ↔ m = n) ∧
          r.value = n * 10 ^ d.lastPlace context) ∧
      (∀ e, d.round context = .error e ↔
        e = .roundingNecessary ∧ d.Refuses context ∨
        e = .scaleOverflow ∧ ¬ d.Refuses context ∧ d.roundedScale context < -2147483648) ∧
      (∀ cut, d.dropDigits (d.precision - context.precision) context.mode = .ok cut →
        context.precision < cut.precision → ∀ c ∈ cut.digitsBehind context.precision, c = '0')) ∧
    (∃ calls, calls ≤ 2 ∧ RoundCalls context calls d (d.round context)) ∧
    (∀ calls result, RoundCalls context calls d result → result = d.round context) := by
  refine ⟨round_eq_self, ?_, exists_roundCalls d context, fun _ _ => eq_round_of_roundCalls⟩
  intro h0 hd
  refine ⟨?_, ?_, ?_⟩
  · intro r hr
    obtain ⟨-, h⟩ | ⟨-, ⟨-, h⟩ | ⟨s, h, hp, hs, n, hn, hv⟩⟩ := round_cases h0 hd
    · exact nomatch h.symm.trans hr
    · exact nomatch h.symm.trans hr
    · obtain rfl : s = r := Except.ok.inj (h.symm.trans hr)
      refine ⟨hp, hs, n, fun m => ⟨fun hm => takes_unique hm hn, ?_⟩, hv⟩
      rintro rfl
      exact hn
  · intro e
    obtain ⟨href, h⟩ | ⟨href, ⟨hs, h⟩ | ⟨r, h, -, hs, -⟩⟩ := round_cases h0 hd
    · simp [h, href, eq_comm]
    · simp [h, href, hs, eq_comm]
    · have hfits := r.scale_fits
      have hle : ¬ d.roundedScale context < -2147483648 := by omega
      simp [h, href, hle]
  · intro cut h hc
    exact forall_digitsBehind_iff.mpr (ten_dvd_of_carry h0 (carry_of_cut h0 hd h hc))

/-- `99.95` to three digits goes up to `100.0`, of which a second cut leaves `100`; at the least
scale but one there is no room for it. -/
theorem round_correctly_rounded_carrying :
    (∃ r : Decimal, round ⟨9995, 2, by decide⟩ ⟨3, .halfEven⟩ = .ok r ∧ r.precision = 3 ∧
      r.scale = roundedScale ⟨9995, 2, by decide⟩ ⟨3, .halfEven⟩) ∧
    round ⟨9995, -2147483647, by decide⟩ ⟨3, .halfEven⟩ = .error .scaleOverflow := by
  constructor
  · obtain ⟨hr, -, -⟩ := (round_correctly_rounded ⟨9995, 2, by decide⟩ ⟨3, .halfEven⟩).2.1
      (by decide) (by decide)
    have h : round ⟨9995, 2, by decide⟩ ⟨3, .halfEven⟩ = .ok ⟨100, 0, by decide⟩ := by decide
    obtain ⟨hp, hs, -⟩ := hr _ h
    exact ⟨_, h, hp, hs⟩
  · obtain ⟨-, he, -⟩ := (round_correctly_rounded ⟨9995, -2147483647, by decide⟩
      ⟨3, .halfEven⟩).2.1 (by decide) (by decide)
    refine (he _).mpr (.inr ⟨rfl, ?_, ?_⟩)
    · rintro ⟨hm, -⟩
      exact nomatch hm
    · decide

end Decimal

end ExactDecimal
