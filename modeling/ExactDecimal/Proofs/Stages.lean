import ExactDecimal.Proofs.Monotone
import ExactDecimal.Proofs.Division
/-!
Rounding in stages. The numbers of a coarse grid are numbers of every finer one, so a mode that goes
to the next of them in some direction may stop at a finer grid on the way. A mode that asks which of
two neighbours is nearer may not, for the first stage can carry a number into the middle or past it.
A change of scale is a rounding on the grid of that scale, and two in a row, each to fewer places,
come to the last of them alone.
-/
namespace ExactDecimal

theorem ceil_div_natCast (x : ℚ) (k : Nat) : ⌈x / k⌉ = -(-⌈x⌉ / k) := by
  rw [← neg_neg ⌈x / k⌉, ← Int.floor_neg, ← neg_div, Int.floor_div_natCast, Int.floor_neg]

theorem mul_ten_zpow_of_le (x : ℚ) {s t : Int} (h : t ≤ s) :
    x * 10 ^ t = x * 10 ^ s / pow10 (s - t).toNat := by
  rw [cast_pow10_toNat (by omega), zpow_sub₀ (by decide), div_div_eq_mul_div, mul_right_comm,
    mul_div_cancel_right₀ _ (ten_zpow_pos s).ne']

/-- More places can hold what fewer can. -/
theorem IsExactAt.mono {x : ℚ} {s t : Int} (hx : IsExactAt x t) (h : t ≤ s) : IsExactAt x s := by
  obtain ⟨n, hn⟩ := hx
  have hk : (pow10 (s - t).toNat : ℚ) ≠ 0 := Nat.cast_ne_zero.mpr (pow10_pos _).ne'
  rw [mul_ten_zpow_of_le x h, div_eq_iff hk] at hn
  exact ⟨n * pow10 (s - t).toNat, by rw [hn, Int.cast_mul, Int.cast_natCast]⟩

namespace RoundingMode

/-- The modes that do not ask how near a number is to its neighbours. -/
def ignoresDistance : RoundingMode → Bool
  | up | down | ceiling | floor | unnecessary => true
  | halfUp | halfDown | halfEven => false

theorem ignoresDistance_mirror (mode : RoundingMode) :
    mode.mirror.ignoresDistance = mode.ignoresDistance := by
  cases mode <;> rfl

/-! ## Two grids -/

section Grids

variable {mode : RoundingMode} {x : ℚ} {k : Nat} {m n : Int}

theorem takes_up_iff (hx : 0 ≤ x) : up.Takes x n ↔ n = ⌈x⌉ := by
  have hc : ceiling.Takes x ⌈x⌉ := rfl
  have hup : up.Takes x ⌈x⌉ := ⟨isNeighbour_of_takes hc, abs_le_abs_of_nonneg hx (Int.le_ceil x)⟩
  constructor
  · exact fun h => takes_unique h hup
  · rintro rfl
    exact hup

theorem takes_down_iff (hx : 0 ≤ x) : down.Takes x n ↔ n = ⌊x⌋ := by
  have hf : floor.Takes x ⌊x⌋ := rfl
  have hdown : down.Takes x ⌊x⌋ := by
    refine ⟨isNeighbour_of_takes hf, abs_le_abs_of_nonneg ?_ (Int.floor_le x)⟩
    exact Int.cast_nonneg (Int.floor_nonneg.mpr hx)
  constructor
  · exact fun h => takes_unique h hdown
  · rintro rfl
    exact hdown

/-- The coarse grid after the fine one, above zero. -/
theorem takes_div_of_nonneg (hd : mode.ignoresDistance = true) (hx : 0 ≤ x) (hn : mode.Takes x n)
    (hm : mode.Takes (n / k) m) : mode.Takes (x / k) m := by
  have hxk : 0 ≤ x / k := div_nonneg hx (Nat.cast_nonneg k)
  have hnk : (0 : ℚ) ≤ n / k := by
    have h0 : 0 ≤ n := le_takes hn (by rwa [Int.cast_zero])
    exact div_nonneg (Int.cast_nonneg h0) (Nat.cast_nonneg k)
  have hceil (h : n = ⌈x⌉) : ⌈(n : ℚ) / k⌉ = ⌈x / k⌉ := by
    rw [ceil_div_natCast, ceil_div_natCast, Int.ceil_intCast, h]
  have hfloor (h : n = ⌊x⌋) : ⌊(n : ℚ) / k⌋ = ⌊x / k⌋ := by
    rw [Int.floor_div_natCast, Int.floor_div_natCast, Int.floor_intCast, h]
  cases mode with
  | up =>
    rw [takes_up_iff hx] at hn
    rw [takes_up_iff hnk, hceil hn] at hm
    exact (takes_up_iff hxk).mpr hm
  | down =>
    rw [takes_down_iff hx] at hn
    rw [takes_down_iff hnk, hfloor hn] at hm
    exact (takes_down_iff hxk).mpr hm
  | ceiling => exact hm.trans (hceil hn)
  | floor => exact hm.trans (hfloor hn)
  | unnecessary =>
    obtain rfl : (n : ℚ) = x := hn
    exact hm
  | halfUp => exact nomatch hd
  | halfDown => exact nomatch hd
  | halfEven => exact nomatch hd

/-- The same on both sides of zero. -/
theorem takes_div (hd : mode.ignoresDistance = true) (hn : mode.Takes x n)
    (hm : mode.Takes (n / k) m) : mode.Takes (x / k) m := by
  obtain hx | hx := le_total 0 x
  · exact takes_div_of_nonneg hd hx hn hm
  · rw [← takes_mirror] at hn hm ⊢
    rw [← neg_div] at hm ⊢
    rw [← Int.cast_neg] at hm
    rw [← ignoresDistance_mirror] at hd
    exact takes_div_of_nonneg hd (neg_nonneg.mpr hx) hn hm

end Grids

/-! ## Grids of decimal places -/

/-- Whether a mode rounds `x` to `y` at a scale, which is to take the one to the other in units of
the last place. -/
def RoundsAt (mode : RoundingMode) (scale : Int) (x y : ℚ) : Prop :=
  ∃ n : Int, mode.Takes (x * 10 ^ scale) n ∧ y * 10 ^ scale = n

section Places

variable {mode : RoundingMode} {s t : Int} {x y z : ℚ}

theorem RoundsAt.isExactAt (h : mode.RoundsAt s x y) : IsExactAt y s :=
  h.imp fun _ h => h.2

theorem RoundsAt.unique (hy : mode.RoundsAt s x y) (hz : mode.RoundsAt s x z) : y = z := by
  obtain ⟨m, hm, hy⟩ := hy
  obtain ⟨n, hn, hz⟩ := hz
  obtain rfl := takes_unique hm hn
  exact mul_right_cancel₀ (ten_zpow_pos s).ne' (hy.trans hz.symm)

/-- A number of the grid is not moved. -/
theorem roundsAt_iff_of_exact (hx : IsExactAt x s) : mode.RoundsAt s x y ↔ y = x := by
  have hself : mode.RoundsAt s x x := by
    obtain ⟨n, hn⟩ := hx
    exact ⟨n, hn ▸ takes_intCast.mpr rfl, hn⟩
  constructor
  · exact fun h => h.unique hself
  · rintro rfl
    exact hself

theorem exists_roundsAt (h : mode ≠ unnecessary) (s : Int) (x : ℚ) : ∃ y, mode.RoundsAt s x y := by
  obtain ⟨n, hn⟩ := exists_takes h (x * 10 ^ s)
  refine ⟨n * 10 ^ (-s), n, hn, ?_⟩
  rw [mul_assoc, ← zpow_add₀ (by decide), neg_add_cancel, zpow_zero, mul_one]

/-- Fewer places after more places are fewer places at once. -/
theorem RoundsAt.trans (hd : mode.ignoresDistance = true) (h : t ≤ s) (hz : mode.RoundsAt s x z)
    (hy : mode.RoundsAt t z y) : mode.RoundsAt t x y := by
  obtain ⟨n, hn, hz⟩ := hz
  obtain ⟨m, hm, hy⟩ := hy
  rw [mul_ten_zpow_of_le z h, hz] at hm
  refine ⟨m, ?_, hy⟩
  rw [mul_ten_zpow_of_le x h]
  exact takes_div hd hn hm

/-- Every rounding to fewer places passes through one to more places. -/
theorem roundsAt_iff_exists (hd : mode.ignoresDistance = true) (h : t ≤ s) :
    mode.RoundsAt t x y ↔ ∃ z, mode.RoundsAt s x z ∧ mode.RoundsAt t z y := by
  constructor
  · intro hy
    by_cases hm : mode = unnecessary
    · subst hm
      have hx : y = x := by
        obtain ⟨n, hn, hy⟩ := hy
        have hn : (n : ℚ) = x * 10 ^ t := hn
        exact mul_right_cancel₀ (ten_zpow_pos t).ne' (hy.trans hn)
      have hx := hx ▸ hy.isExactAt.mono h
      exact ⟨x, (roundsAt_iff_of_exact hx).mpr rfl, hy⟩
    · obtain ⟨z, hz⟩ := exists_roundsAt hm s x
      obtain ⟨y', hy'⟩ := exists_roundsAt hm t z
      exact ⟨z, hz, hy.unique (hz.trans hd h hy') ▸ hy'⟩
  · rintro ⟨z, hz, hy⟩
    exact hz.trans hd h hy

/-- After a rounding to more places, only its result counts. -/
theorem RoundsAt.roundsAt_iff (hd : mode.ignoresDistance = true) (h : t ≤ s)
    (hz : mode.RoundsAt s x z) : mode.RoundsAt t x y ↔ mode.RoundsAt t z y := by
  rw [roundsAt_iff_exists hd h]
  constructor
  · rintro ⟨z', hz', hy⟩
    exact hz.unique hz' ▸ hy
  · exact fun hy => ⟨z, hz, hy⟩

end Places

end RoundingMode

namespace Decimal

/-! ## Changes of scale -/

section Rescaling

variable {d q : Decimal} {s t : Int} {mode : RoundingMode}

theorem roundsAt_value_iff {x : ℚ} :
    mode.RoundsAt q.scale x q.value ↔ mode.Takes (x * 10 ^ q.scale) q.magnitude := by
  have hq : q.value * 10 ^ q.scale = q.magnitude := by
    rw [value_mul_ten_zpow le_rfl, magnitudeAt_self]
  constructor
  · rintro ⟨n, hn, h⟩
    obtain rfl : q.magnitude = n := Int.cast_injective (hq.symm.trans h)
    exact hn
  · exact fun h => ⟨q.magnitude, h, hq⟩

/-- A change of scale is a rounding on the grid of the new scale. -/
theorem withScaleRound_eq_ok_iff (h0 : 0 ≤ s) (hs : ScaleFits s) :
    d.withScaleRound s mode = .ok q ↔ q.scale = s ∧ mode.RoundsAt s d.value q.value := by
  rw [withScaleRound, divideToScale_eq_ok_iff (by decide) h0 (withScaleRound_ne_overflow d hs mode),
    value_one, div_one]
  apply and_congr_right
  rintro rfl
  exact roundsAt_value_iff.symm

theorem exists_of_isExactAt {x : ℚ} (hx : IsExactAt x s) (hs : ScaleFits s) :
    ∃ d : Decimal, d.scale = s ∧ d.value = x := by
  obtain ⟨n, hn⟩ := hx
  refine ⟨⟨n, s, hs⟩, rfl, ?_⟩
  rw [value, ← hn, mul_assoc, ← zpow_add₀ (by decide), add_neg_cancel, zpow_zero, mul_one]

/-- The two ways to fewer places give one result. -/
theorem withScaleRound_bind_withScaleRound (d : Decimal) (h0 : 0 ≤ t) (h : t ≤ s)
    (hs : ScaleFits s) (hd : mode.ignoresDistance = true) :
    (d.withScaleRound s mode >>= (·.withScaleRound t mode)) = d.withScaleRound t mode := by
  have h0s : 0 ≤ s := h0.trans h
  have ht : ScaleFits t := by omega
  apply eq_of_ok_iff (e := .roundingNecessary)
  · intro e he
    obtain he | ⟨r, -, he⟩ := bind_eq_error he
    · exact eq_roundingNecessary_of_withScaleRound h0s hs he
    · exact eq_roundingNecessary_of_withScaleRound h0 ht he
  · exact fun e => eq_roundingNecessary_of_withScaleRound h0 ht
  · intro q
    rw [withScaleRound_eq_ok_iff h0 ht, RoundingMode.roundsAt_iff_exists hd h]
    constructor
    · intro hq
      obtain ⟨r, hr, hq⟩ := bind_eq_ok hq
      obtain ⟨-, hr⟩ := (withScaleRound_eq_ok_iff h0s hs).mp hr
      obtain ⟨hqs, hq⟩ := (withScaleRound_eq_ok_iff h0 ht).mp hq
      exact ⟨hqs, r.value, hr, hq⟩
    · rintro ⟨hqs, z, hz, hq⟩
      obtain ⟨r, hrs, rfl⟩ := exists_of_isExactAt hz.isExactAt hs
      rw [(withScaleRound_eq_ok_iff h0s hs).mpr ⟨hrs, hz⟩, ok_bind]
      exact (withScaleRound_eq_ok_iff h0 ht).mpr ⟨hqs, hq⟩

theorem exists_withScaleRound (d : Decimal) (h0 : 0 ≤ s) (hs : ScaleFits s)
    (hm : mode ≠ .unnecessary) : ∃ q, d.withScaleRound s mode = .ok q := by
  refine (exists_divideToScale_iff hs).mpr ?_
  intro e he
  exact hm ((refusal_one_iff h0 hs).mp he).2.1

/-- A change to fewer places may be made by way of more places, in every mode that does not ask how
near a number is to its neighbours. Only the mode that loses no digit can refuse it, and it does so
exactly if it refuses one of the two stages. -/
theorem withScaleRound_in_stages (d : Decimal) (h0 : 0 ≤ t) (h : t ≤ s) (hs : ScaleFits s)
    (hd : mode.ignoresDistance = true) :
    (d.withScaleRound s mode >>= (·.withScaleRound t mode)) = d.withScaleRound t mode ∧
    (mode ≠ .unnecessary → ∃ q, d.withScaleRound t mode = .ok q) ∧
    (∀ e, d.withScaleRound t mode = .error e ↔
      e = .roundingNecessary ∧
        (d.withScaleRound s mode = .error .roundingNecessary ∨
          ∃ r, d.withScaleRound s mode = .ok r ∧
            r.withScaleRound t mode = .error .roundingNecessary)) := by
  have hstages := withScaleRound_bind_withScaleRound d h0 h hs hd
  have ht : ScaleFits t := by omega
  refine ⟨hstages, exists_withScaleRound d h0 ht, fun e => ⟨?_, ?_⟩⟩
  · intro he
    obtain rfl := eq_roundingNecessary_of_withScaleRound h0 ht he
    exact ⟨rfl, bind_eq_error (hstages.trans he)⟩
  · rintro ⟨rfl, he | ⟨r, hr, he⟩⟩
    · rw [← hstages, he, error_bind]
    · rw [← hstages, hr, ok_bind, he]

/-- `-0.004` is taken to a zero first, and that one to zero places; `1.50` loses its zero, but not
its five. -/
theorem withScaleRound_in_stages_to_integers :
    (withScaleRound ⟨-4, 3, by decide⟩ 2 .ceiling = .ok ⟨0, 2, by decide⟩ ∧
      (withScaleRound ⟨-4, 3, by decide⟩ 2 .ceiling >>= (·.withScaleRound 0 .ceiling)) =
        withScaleRound ⟨-4, 3, by decide⟩ 0 .ceiling) ∧
    (∃ r, withScaleRound ⟨150, 2, by decide⟩ 1 .unnecessary = .ok r ∧
      r.withScaleRound 0 .unnecessary = .error .roundingNecessary) ∧
    withScaleRound ⟨150, 2, by decide⟩ 0 .unnecessary = .error .roundingNecessary := by
  have hr : withScaleRound ⟨150, 2, by decide⟩ 1 .unnecessary = .ok ⟨15, 1, by decide⟩ := by decide
  have he : withScaleRound ⟨15, 1, by decide⟩ 0 .unnecessary = .error .roundingNecessary := by
    decide
  refine ⟨⟨by decide, ?_⟩, ⟨_, hr, he⟩, ?_⟩
  · exact (withScaleRound_in_stages _ (by decide) (by decide) (by decide) rfl).1
  · exact ((withScaleRound_in_stages _ (by decide) (by decide) (by decide) rfl).2.2 _).mpr
      ⟨rfl, .inr ⟨_, hr, he⟩⟩

/-- The nearest of two neighbours is another matter: `0.45` to `0.5` and to `1`, but to `0`. -/
example : (withScaleRound ⟨45, 2, by decide⟩ 1 .halfUp >>= (·.withScaleRound 0 .halfUp)) =
      .ok ⟨1, 0, by decide⟩ ∧
    withScaleRound ⟨45, 2, by decide⟩ 0 .halfUp = .ok ⟨0, 0, by decide⟩ := by decide

end Rescaling

end Decimal

end ExactDecimal
