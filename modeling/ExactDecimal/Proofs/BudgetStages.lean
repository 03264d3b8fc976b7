import ExactDecimal.Proofs.Stages
/-!
Digit budgets in stages. To round to a digit budget is to round on the grid at which the value fills
the budget, and the result is told apart from others of its value by having as many digits as the
budget. A carry moves the first digit up by one place, and a second stage then rounds on another grid
than rounding at once; but what a carry leaves is a power of ten, which neither grid moves.
-/
namespace ExactDecimal

namespace Decimal

open RoundingMode (takes_unique le_natAbs_of_takes roundsAt_iff_of_exact)

/-! ## Where the rounded value begins -/

theorem abs_value_of_exact {d : Decimal} {s n : Int} (h : d.value * 10 ^ s = n) :
    |d.value| = n.natAbs * 10 ^ (-s) := by
  rw [zpow_neg, ← div_eq_mul_inv, eq_div_iff (ten_zpow_pos s).ne', ← abs_of_pos (ten_zpow_pos s),
    ← abs_mul, h, Nat.cast_natAbs, Int.cast_abs]

/-- A number of a grid begins where the integer does that it is in units of the grid. -/
theorem height_of_exact {d : Decimal} {s n : Int} (hn : n ≠ 0) (h : d.value * 10 ^ s = n) :
    d.height = digitCount n.natAbs - s := by
  have hz : d.value ≠ 0 := by
    intro hz
    rw [hz, zero_mul] at h
    exact hn (Int.cast_eq_zero.mp h.symm)
  have habs := abs_value_of_exact h
  rw [abs_value_eq] at habs
  have hl := digitCount_add_le (Int.natAbs_ne_zero.mpr (value_eq_zero_iff.not.mp hz)) habs.le
  have hu := digitCount_add_le (Int.natAbs_ne_zero.mpr hn) habs.ge
  rw [height, precision]
  omega

theorem isExactAt_of_abs_eq {x : ℚ} {k s : Int} (hx : |x| = 10 ^ k) (h : 0 ≤ k + s) :
    IsExactAt x s := by
  obtain rfl | rfl := (abs_eq (ten_zpow_pos k).le).mp hx
  · exact isExactAt_zpow h
  · exact (isExactAt_zpow h).neg

section Budget

variable {d r : Decimal} {context : Context} (h0 : context.precision ≠ 0)
  (hd : context.precision < d.precision)

theorem roundsAt_of_round (h0 : context.precision ≠ 0) (h : d.round context = .ok r) :
    context.mode.RoundsAt (d.budgetScale context) d.value r.value := by
  obtain ⟨n, hn, hv⟩ := takes_of_round h0 h
  refine ⟨n, hn, ?_⟩
  rw [hv, mul_assoc, ← zpow_add₀ (by decide), neg_add_cancel, zpow_zero, mul_one]

include h0 hd

/-- The rounded value begins where the exact one does, or it is the power of ten at which the next
place begins. -/
theorem height_of_roundsAt
    (h : context.mode.RoundsAt (d.budgetScale context) d.value r.value) :
    r.height = d.height ∧ ¬ d.Carries context ∨
      r.height = d.height + 1 ∧ d.Carries context ∧ |r.value| = 10 ^ d.height := by
  obtain ⟨n, hn, hr⟩ := h
  have htakes : context.mode.Takes (d.value / 10 ^ d.lastPlace context) n := by
    rwa [lastPlace_eq_neg_budgetScale hd, zpow_neg, div_inv_eq_mul]
  have hn0 : n ≠ 0 := by
    have hl := le_natAbs_of_takes htakes (abs_value_div_bounds h0 hd).1
    exact Int.natAbs_pos.mp ((pow10_pos _).trans_le hl)
  rw [height_of_exact hn0 hr, budgetScale]
  obtain ⟨hne, hp⟩ | ⟨hcarry, hp⟩ := digitCount_of_takes h0 hd htakes
  · refine .inl ⟨by omega, ?_⟩
    rintro ⟨m, hm, hcarry⟩
    exact hne (takes_unique htakes hm ▸ hcarry)
  · refine .inr ⟨by omega, ⟨n, htakes, hcarry⟩, ?_⟩
    rw [abs_value_of_exact hr, hcarry, cast_pow10_zpow, ← zpow_add₀ (by decide), budgetScale]
    congr 1
    omega

theorem scale_of_roundsAt (hp : r.precision = context.precision)
    (h : context.mode.RoundsAt (d.budgetScale context) d.value r.value) :
    r.scale = d.roundedScale context := by
  rw [roundedScale]
  obtain ⟨hh, hc⟩ | ⟨hh, hc, -⟩ := height_of_roundsAt h0 hd h
  · rw [if_neg hc]
    rw [height, height] at hh
    omega
  · rw [if_pos hc]
    rw [height, height] at hh
    omega

variable (hm : context.mode ≠ .unnecessary)

include hm

theorem round_eq_error_iff {e : ArithmeticError} : d.round context = .error e ↔
    e = .scaleOverflow ∧ d.roundedScale context < -2147483648 := by
  obtain ⟨href, -⟩ | ⟨-, ⟨hs, h⟩ | ⟨r, h, -, hs, -⟩⟩ := round_cases h0 hd
  · exact absurd href.1 hm
  · simp [h, hs, eq_comm]
  · have hfits := r.scale_fits
    have hle : ¬ d.roundedScale context < -2147483648 := by omega
    simp [h, hle]

/-- Of all decimals of the rounded value, the one with as many digits as the budget. -/
theorem round_eq_ok_iff : d.round context = .ok r ↔ r.precision = context.precision ∧
    context.mode.RoundsAt (d.budgetScale context) d.value r.value := by
  constructor
  · intro h
    exact ⟨(round_spec h0 hd h).1, roundsAt_of_round h0 h⟩
  · rintro ⟨hp, hr⟩
    have hscale := scale_of_roundsAt h0 hd hp hr
    have hfits := r.scale_fits
    obtain ⟨href, -⟩ | ⟨-, ⟨hlow, -⟩ | ⟨s, hs, -, hss, -⟩⟩ := round_cases h0 hd
    · exact absurd href.1 hm
    · omega
    · rw [hs, eq_of_value_eq (hss.trans hscale.symm) ((roundsAt_of_round h0 hs).unique hr)]

end Budget

/-! ## Two budgets -/

/-- What a context has rounded it leaves as it is. -/
theorem round_of_round {d r : Decimal} {context : Context} (h : d.round context = .ok r) :
    r.round context = .ok r := by
  apply round_eq_self
  by_cases h0 : context.precision = 0
  · exact .inl h0
  obtain hd | hd := le_or_gt d.precision context.precision
  · rw [round_eq_self (.inr hd)] at h
    exact .inr (Except.ok.inj h ▸ hd)
  · exact .inr (round_spec h0 hd h).1.le

section Stages

variable {d r : Decimal} {first second : Context} (h0 : second.precision ≠ 0)
  (hlt : second.precision < first.precision) (hd : first.precision < d.precision)

include h0 hlt hd

/-- The second budget is met on another grid after a carry, but to the same effect. -/
theorem roundsAt_second_budget (hm : first.mode.ignoresDistance = true)
    (h : first.mode.RoundsAt (d.budgetScale first) d.value r.value) {y : ℚ} :
    first.mode.RoundsAt (r.budgetScale second) r.value y ↔
      first.mode.RoundsAt (d.budgetScale second) d.value y := by
  have hle : d.budgetScale second ≤ d.budgetScale first := by
    rw [budgetScale, budgetScale]
    omega
  rw [h.roundsAt_iff hm hle, budgetScale, budgetScale]
  obtain ⟨hh, -⟩ | ⟨hh, -, hpower⟩ := height_of_roundsAt (Nat.ne_of_gt (by omega)) hd h
  · rw [hh]
  · -- after the carry the grid is coarser by one place, and a power of ten is a number of both
    rw [roundsAt_iff_of_exact (isExactAt_of_abs_eq hpower (by omega)),
      roundsAt_iff_of_exact (isExactAt_of_abs_eq hpower (by omega))]

omit h0 in
theorem roundedScale_le_of_lt : d.roundedScale second ≤ d.roundedScale first := by
  unfold roundedScale
  split <;> split <;> omega

/-- Where the first budget has no scale for its result, the second one, which asks for a lower scale,
has none either; elsewhere the two ways end in the same decimal. -/
theorem round_bind_round_of_lt (hm : first.mode.ignoresDistance = true)
    (hu : first.mode ≠ .unnecessary) (hmode : second.mode = first.mode) :
    (d.round first >>= (·.round second)) = d.round second := by
  have h0f : first.precision ≠ 0 := by omega
  have hds : second.precision < d.precision := hlt.trans hd
  have hus : second.mode ≠ .unnecessary := hmode ▸ hu
  cases hr : d.round first with
  | error e =>
    obtain ⟨rfl, hlow⟩ := (round_eq_error_iff h0f hd hu).mp hr
    have hle := roundedScale_le_of_lt hlt hd
    exact ((round_eq_error_iff h0 hds hus).mpr ⟨rfl, by omega⟩).symm
  | ok r =>
    obtain ⟨hp, hrounds⟩ := (round_eq_ok_iff h0f hd hu).mp hr
    have hrs : second.precision < r.precision := by omega
    rw [ok_bind]
    apply eq_of_ok_iff (e := .scaleOverflow)
    · exact fun e he => ((round_eq_error_iff h0 hrs hus).mp he).1
    · exact fun e he => ((round_eq_error_iff h0 hds hus).mp he).1
    · intro q
      rw [round_eq_ok_iff h0 hrs hus, round_eq_ok_iff h0 hds hus, hmode,
        roundsAt_second_budget h0 hlt hd hm hrounds]

end Stages

theorem round_bind_round (d : Decimal) {p q : Nat} (hq : q ≠ 0) (hqp : q ≤ p) {mode : RoundingMode}
    (hm : mode.ignoresDistance = true) (hu : mode ≠ .unnecessary) :
    (d.round ⟨p, mode⟩ >>= (·.round ⟨q, mode⟩)) = d.round ⟨q, mode⟩ := by
  obtain hd | hd := le_or_gt d.precision p
  · rw [round_eq_self (.inr hd), ok_bind]
  obtain rfl | hlt := hqp.eq_or_lt
  · cases hr : d.round ⟨q, mode⟩ with
    | error e => rfl
    | ok r => exact round_of_round hr
  · exact round_bind_round_of_lt hq hlt hd hm hu rfl

/-- A digit budget may be met by way of a larger one, in every mode that goes in a direction: both
ways end in the same decimal, or neither has a scale for it, and that is all that can be wrong.
Whatever a context has rounded it does not round again. -/
theorem round_in_stages (d : Decimal) {p q : Nat} (hq : 1 ≤ q) (hqp : q ≤ p) {mode : RoundingMode}
    (hm : mode.ignoresDistance = true) (hu : mode ≠ .unnecessary) :
    (d.round ⟨p, mode⟩ >>= (·.round ⟨q, mode⟩)) = d.round ⟨q, mode⟩ ∧
    (∀ e, d.round ⟨q, mode⟩ = .error e ↔
      e = .scaleOverflow ∧ q < d.precision ∧ d.roundedScale ⟨q, mode⟩ < -2147483648) ∧
    (∀ (context : Context) (r : Decimal), d.round context = .ok r → r.round context = .ok r) := by
  have h0 : q ≠ 0 := by omega
  refine ⟨round_bind_round d h0 hqp hm hu, ?_, fun context r => round_of_round⟩
  intro e
  obtain hd | hd := le_or_gt d.precision q
  · have hself : d.round ⟨q, mode⟩ = .ok d := round_eq_self (.inr hd)
    simp [hself, hd.not_gt]
  · rw [round_eq_error_iff h0 hd hu, and_iff_right hd]

/-- `999.95` carries in the first stage and also at once; `994.9` carries in the second stage; and
at the least scale but one there is no room for the carry on either way. -/
theorem round_in_stages_carrying :
    (round ⟨99995, 2, by decide⟩ ⟨4, .up⟩ = .ok ⟨1000, 0, by decide⟩ ∧
      (round ⟨99995, 2, by decide⟩ ⟨4, .up⟩ >>= (·.round ⟨2, .up⟩)) =
        round ⟨99995, 2, by decide⟩ ⟨2, .up⟩) ∧
    (round ⟨9949, 1, by decide⟩ ⟨3, .ceiling⟩ = .ok ⟨995, 0, by decide⟩ ∧
      (round ⟨9949, 1, by decide⟩ ⟨3, .ceiling⟩ >>= (·.round ⟨2, .ceiling⟩)) =
        round ⟨9949, 1, by decide⟩ ⟨2, .ceiling⟩) ∧
    (round ⟨-9995, -2147483647, by decide⟩ ⟨3, .floor⟩ >>= (·.round ⟨1, .floor⟩)) =
      .error .scaleOverflow := by
  have hfloor : RoundingMode.floor.ignoresDistance = true := rfl
  have hlow := round_in_stages ⟨-9995, -2147483647, by decide⟩ (by decide : 1 ≤ 1)
    (by decide : 1 ≤ 3) hfloor (by decide)
  refine ⟨⟨by decide, ?_⟩, ⟨by decide, ?_⟩, ?_⟩
  · exact (round_in_stages _ (by decide) (by decide) rfl (by decide)).1
  · exact (round_in_stages _ (by decide) (by decide) rfl (by decide)).1
  · rw [hlow.1, hlow.2.1]
    exact ⟨rfl, by decide, by decide⟩

end Decimal

end ExactDecimal
