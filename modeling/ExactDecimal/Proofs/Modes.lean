import ExactDecimal.Proofs.Quotient
import Mathlib.Algebra.Order.Floor.Ring
import Mathlib.Algebra.Order.Archimedean.Basic
import Mathlib.Data.Rat.Floor
import Mathlib.Tactic.Linarith
/-!
What a rounding mode means, said of a rational number and an integer and not of a quotient and a
remainder. A number that is no integer lies between two neighbours, and each mode but one takes one
of them: by the side of zero, by direction, or by distance with a rule for the middle. The last
mode takes none. The rounded quotient is the integer that the mode takes for the exact fraction,
for all signs of dividend and divisor; it fails only where there is none.
-/
namespace ExactDecimal

/-- One of the two integers around `x`, or `x` itself. -/
def IsNeighbour (x : ℚ) (n : Int) : Prop := |(n : ℚ) - x| < 1

/-- No integer is nearer to `x`. -/
def IsNearestInteger (x : ℚ) (n : Int) : Prop := ∀ k : Int, |(n : ℚ) - x| ≤ |(k : ℚ) - x|

/-- Nearest to `x`, and preferred to the other integer where two are equally near. -/
def IsNearestBy (prefer : Int → Int → Prop) (x : ℚ) (n : Int) : Prop :=
  IsNearestInteger x n ∧ ∀ k, IsNearestInteger x k → prefer n k

/-- The integer to which a mode takes `x`. Away from zero and toward zero it is a neighbour on that
side, up and down the next integer in order, and to the nearest a rule for ties prefers the one away
from zero, toward zero or the even one. An integer is taken to itself in every mode. -/
def RoundingMode.Takes (mode : RoundingMode) (x : ℚ) (n : Int) : Prop :=
  match mode with
  | up => IsNeighbour x n ∧ |x| ≤ |(n : ℚ)|
  | down => IsNeighbour x n ∧ |(n : ℚ)| ≤ |x|
  | ceiling => n = ⌈x⌉
  | floor => n = ⌊x⌋
  | halfUp => IsNearestBy (fun n other => |other| ≤ |n|) x n
  | halfDown => IsNearestBy (fun n other => |n| ≤ |other|) x n
  | halfEven => IsNearestBy (fun n other => other = n ∨ Even n) x n
  | unnecessary => (n : ℚ) = x

/-! ## Neighbours -/

section Between

variable {q : Int} {f : ℚ} (h0 : 0 < f) (h1 : f < 1)

include h0 h1

theorem isNeighbour_iff {n : Int} : IsNeighbour (q + f) n ↔ n = q ∨ n = q + 1 := by
  rw [IsNeighbour, abs_lt]
  constructor
  · rintro ⟨hl, hu⟩
    have hl : (q : ℚ) < n + 1 := by linarith
    have hu : (n : ℚ) < q + 2 := by linarith
    have hl : q < n + 1 := by exact_mod_cast hl
    have hu : n < q + 2 := by exact_mod_cast hu
    omega
  · rintro (rfl | rfl)
    · constructor <;> linarith
    · push_cast
      constructor <;> linarith

theorem cast_ne_between (n : Int) : (n : ℚ) ≠ q + f := by
  intro hn
  have hl : (q : ℚ) < n := by linarith
  have hu : (n : ℚ) < (q + 1 : Int) := by
    push_cast
    linarith
  have hl := Int.cast_lt.mp hl
  have hu := Int.cast_lt.mp hu
  omega

theorem floor_between : ⌊(q : ℚ) + f⌋ = q := by
  rw [Int.floor_eq_iff]
  constructor <;> linarith

theorem ceil_between : ⌈(q : ℚ) + f⌉ = q + 1 := by
  rw [Int.ceil_eq_iff]
  push_cast
  constructor <;> linarith

theorem isNearestInteger_iff {n : Int} :
    IsNearestInteger (q + f) n ↔ f ≤ 1 / 2 ∧ n = q ∨ 1 / 2 ≤ f ∧ n = q + 1 := by
  have hlow : |(q : ℚ) - (q + f)| = f := by rw [abs_of_neg] <;> linarith
  have hhigh : |((q + 1 : Int) : ℚ) - (q + f)| = 1 - f := by
    push_cast
    rw [abs_of_pos] <;> linarith
  constructor
  · intro h
    have hl := h q
    have hu := h (q + 1)
    rw [hlow] at hl
    rw [hhigh] at hu
    obtain rfl | rfl := (isNeighbour_iff h0 h1).mp (hl.trans_lt h1 : IsNeighbour (q + f) n)
    · rw [hlow] at hu
      exact .inl ⟨by linarith, rfl⟩
    · rw [hhigh] at hl
      exact .inr ⟨by linarith, rfl⟩
  · intro h k
    -- an integer is not above the lower neighbour, or not below the upper one
    have hk : f ≤ |(k : ℚ) - (q + f)| ∨ 1 - f ≤ |(k : ℚ) - (q + f)| := by
      obtain hk | hk := le_or_gt k q
      · have hk : (k : ℚ) ≤ q := Int.cast_le.mpr hk
        exact .inl ((by linarith : f ≤ -((k : ℚ) - (q + f))).trans (neg_le_abs _))
      · have hk : (q : ℚ) + 1 ≤ k := by exact_mod_cast hk
        exact .inr ((by linarith : 1 - f ≤ (k : ℚ) - (q + f)).trans (le_abs_self _))
    obtain ⟨hf, rfl⟩ | ⟨hf, rfl⟩ := h
    · rw [hlow]
      obtain hk | hk := hk <;> linarith
    · rw [hhigh]
      obtain hk | hk := hk <;> linarith

/-- In the middle the two neighbours are as near as each other, and anywhere else one is nearer. -/
theorem isNearestBy_iff {prefer : Int → Int → Prop} (hrefl : ∀ k, prefer k k) {n : Int} :
    IsNearestBy prefer (q + f) n ↔
      match compare f (1 / 2) with
      | .lt => n = q
      | .eq => n = q ∧ prefer q (q + 1) ∨ n = q + 1 ∧ prefer (q + 1) q
      | .gt => n = q + 1 := by
  simp only [IsNearestBy, isNearestInteger_iff h0 h1]
  cases h : compare f (1 / 2) with
  | lt =>
    have hle := (compare_lt_iff_lt.mp h).le
    have hge := (compare_lt_iff_lt.mp h).not_ge
    grind
  | eq =>
    have he := compare_eq_iff_eq.mp h
    grind
  | gt =>
    have hle := (compare_gt_iff_gt.mp h).le
    have hge := (compare_gt_iff_gt.mp h).not_ge
    grind

end Between

/-! ## Both sides of zero -/

theorem isNeighbour_neg {x : ℚ} {n : Int} : IsNeighbour (-x) (-n) ↔ IsNeighbour x n := by
  rw [IsNeighbour, IsNeighbour, Int.cast_neg, neg_sub_neg, abs_sub_comm]

theorem isNearestInteger_neg {x : ℚ} {n : Int} :
    IsNearestInteger (-x) (-n) ↔ IsNearestInteger x n := by
  have hdist (k : Int) : |((-k : Int) : ℚ) - -x| = |(k : ℚ) - x| := by
    rw [Int.cast_neg, neg_sub_neg, abs_sub_comm]
  rw [IsNearestInteger, IsNearestInteger, ← (Equiv.neg Int).forall_congr_right]
  simp only [Equiv.neg_apply, hdist]

theorem isNearestBy_neg {prefer : Int → Int → Prop}
    (hneg : ∀ n k, prefer (-n) (-k) ↔ prefer n k) {x : ℚ} {n : Int} :
    IsNearestBy prefer (-x) (-n) ↔ IsNearestBy prefer x n := by
  refine and_congr isNearestInteger_neg ⟨?_, ?_⟩
  · intro h k hk
    exact (hneg n k).mp (h (-k) (isNearestInteger_neg.mpr hk))
  · intro h k hk
    rw [← neg_neg k] at hk ⊢
    exact (hneg n (-k)).mpr (h (-k) (isNearestInteger_neg.mp hk))

namespace RoundingMode

/-- The mode that does on the other side of zero what `mode` does on one. -/
def mirror : RoundingMode → RoundingMode
  | ceiling => floor
  | floor => ceiling
  | mode => mode

theorem awayFromZero?_mirror (mode : RoundingMode) (negative odd : Bool) (half : Ordering) :
    mode.mirror.awayFromZero? (!negative) odd half = mode.awayFromZero? negative odd half := by
  cases mode <;> simp [mirror, awayFromZero?]

theorem takes_mirror {mode : RoundingMode} {x : ℚ} {n : Int} :
    mode.mirror.Takes (-x) (-n) ↔ mode.Takes x n := by
  cases mode with
  | up => simp [mirror, Takes, isNeighbour_neg]
  | down => simp [mirror, Takes, isNeighbour_neg]
  | ceiling => simp [mirror, Takes, Int.floor_neg]
  | floor => simp [mirror, Takes, Int.ceil_neg]
  | halfUp =>
    simp only [mirror, Takes]
    exact isNearestBy_neg fun n k => by rw [abs_neg, abs_neg]
  | halfDown =>
    simp only [mirror, Takes]
    exact isNearestBy_neg fun n k => by rw [abs_neg, abs_neg]
  | halfEven =>
    simp only [mirror, Takes]
    exact isNearestBy_neg fun n k => by rw [neg_inj, even_neg]
  | unnecessary => simp [mirror, Takes]

/-! ## What is cut off and what is taken -/

/-- An integer is taken to itself. -/
theorem takes_intCast {mode : RoundingMode} {m n : Int} : mode.Takes m n ↔ n = m := by
  have hneighbour : IsNeighbour m n ↔ n = m := by
    rw [IsNeighbour, ← Int.cast_sub, ← Int.cast_abs, ← Int.cast_one, Int.cast_lt,
      Int.abs_lt_one_iff, sub_eq_zero]
  have hnearest {k : Int} : IsNearestInteger m k ↔ k = m := by
    constructor
    · intro h
      have hm := h m
      rw [sub_self, abs_zero, abs_nonpos_iff, sub_eq_zero, Int.cast_inj] at hm
      exact hm
    · rintro rfl j
      rw [sub_self, abs_zero]
      exact abs_nonneg _
  cases mode with
  | up => simp +contextual [Takes, hneighbour]
  | down => simp +contextual [Takes, hneighbour]
  | ceiling => simp [Takes]
  | floor => simp [Takes]
  | halfUp => simp +contextual [Takes, IsNearestBy, hnearest]
  | halfDown => simp +contextual [Takes, IsNearestBy, hnearest]
  | halfEven => simp +contextual [Takes, IsNearestBy, hnearest]
  | unnecessary => simp [Takes]

/-- Above zero and between two integers: one step from the integer that is left when the rest is
cut off, or none, as the mode has it. -/
theorem takes_between_iff {mode : RoundingMode} {q : Nat} {f : ℚ} (h0 : 0 < f) (h1 : f < 1)
    {n : Int} : mode.Takes (q + f) n ↔
      ∃ away, mode.awayFromZero? false (q % 2 = 1) (compare f (1 / 2)) = some away ∧
        n = q + if away then 1 else 0 := by
  have hx : (q : ℚ) + f = (q : Int) + f := by rw [Int.cast_natCast]
  have habs : |((q : Int) : ℚ) + f| = q + f := by
    rw [Int.cast_natCast]
    exact abs_of_nonneg (by positivity)
  have hlow : |((q : Int) : ℚ)| = q := by rw [Int.cast_natCast, Nat.abs_cast]
  have hhigh : |((q + 1 : Int) : ℚ)| = q + 1 := by
    push_cast
    exact abs_of_nonneg (by positivity)
  have hnext : |(q : Int) + 1| = q + 1 := abs_of_nonneg (by omega)
  rw [hx]
  cases mode with
  | up =>
    rw [Takes, isNeighbour_iff h0 h1, habs]
    constructor
    · rintro ⟨rfl | rfl, h⟩
      · rw [hlow] at h
        linarith
      · exact ⟨true, rfl, rfl⟩
    · rintro ⟨away, h, rfl⟩
      cases h
      refine ⟨.inr rfl, ?_⟩
      rw [if_pos rfl, hhigh]
      linarith
  | down =>
    rw [Takes, isNeighbour_iff h0 h1, habs]
    constructor
    · rintro ⟨rfl | rfl, h⟩
      · exact ⟨false, rfl, (add_zero _).symm⟩
      · rw [hhigh] at h
        linarith
    · rintro ⟨away, h, rfl⟩
      cases h
      refine ⟨.inl (add_zero _), ?_⟩
      rw [if_neg Bool.false_ne_true, add_zero, hlow]
      linarith
  | ceiling =>
    rw [Takes, ceil_between h0 h1]
    simp [awayFromZero?]
  | floor =>
    rw [Takes, floor_between h0 h1]
    simp [awayFromZero?]
  | halfUp =>
    rw [Takes, isNearestBy_iff h0 h1 (fun k => le_refl |k|)]
    cases compare f (1 / 2) <;> simp [awayFromZero?, hnext]
  | halfDown =>
    rw [Takes, isNearestBy_iff h0 h1 (fun k => le_refl |k|)]
    cases compare f (1 / 2) <;> simp [awayFromZero?, hnext]
  | halfEven =>
    rw [Takes, isNearestBy_iff h0 h1 (fun k => .inl rfl)]
    cases compare f (1 / 2) <;> simp [awayFromZero?]
    grind
  | unnecessary =>
    rw [Takes]
    constructor
    · intro h
      exact absurd h (cast_ne_between h0 h1 n)
    · rintro ⟨away, h, -⟩
      cases h

/-- The same on both sides of zero. -/
theorem takes_signed_iff {mode : RoundingMode} {negative : Bool} {q : Nat} {f : ℚ} (h0 : 0 < f)
    (h1 : f < 1) {n : Int} : mode.Takes (if negative then -(q + f) else q + f) n ↔
      ∃ away, mode.awayFromZero? negative (q % 2 = 1) (compare f (1 / 2)) = some away ∧
        n = signed negative (q + if away then 1 else 0) := by
  cases negative with
  | false => simp [takes_between_iff h0 h1, signed]
  | true =>
    rw [if_pos rfl, ← takes_mirror, neg_neg, takes_between_iff h0 h1]
    have hmirror := awayFromZero?_mirror mode true
    rw [Bool.not_true] at hmirror
    simp only [hmirror, signed, neg_eq_iff_eq_neg]
    push_cast
    rfl

/-! ## Rounded quotients -/

theorem signed_natAbs (n : Int) : signed (decide (n < 0)) n.natAbs = n := by
  by_cases h : n < 0
  · rw [decide_eq_true h]
    change -(n.natAbs : Int) = n
    omega
  · rw [decide_eq_false h]
    change (n.natAbs : Int) = n
    omega

theorem signed_emod_two_eq_one {negative : Bool} {n : Nat} :
    signed negative n % 2 = 1 ↔ n % 2 = 1 := by
  cases negative with
  | false =>
    change (n : Int) % 2 = 1 ↔ _
    omega
  | true =>
    change -(n : Int) % 2 = 1 ↔ _
    omega

/-- Whether a quotient that is not zero is below it. -/
def isBelowZero (n d : Int) : Bool := decide (n < 0) != decide (d < 0)

/-- The size of a quotient, cut off to an integer. -/
def wholeSize (n d : Int) : Nat := n.natAbs / d.natAbs

/-- What is cut off. -/
def restSize (n d : Int) : ℚ := (n.natAbs % d.natAbs : Nat) / (d.natAbs : ℚ)

theorem tdiv_eq_signed (n d : Int) : n.tdiv d = signed (isBelowZero n d) (wholeSize n d) := by
  have hsigned (a b : Bool) (j k : Nat) :
      (signed a j).tdiv (signed b k) = signed (a != b) (j / k) := by
    cases a <;> cases b <;> simp [signed]
  rw [isBelowZero, wholeSize, ← hsigned, signed_natAbs, signed_natAbs]

section Quotient

variable {n d : Int} (hd : d ≠ 0)

include hd

theorem cast_div_eq_signed : (n : ℚ) / d =
    if isBelowZero n d then -(wholeSize n d + restSize n d) else wholeSize n d + restSize n d := by
  have hsigned (a b : Bool) (j k : Nat) :
      (signed a j : ℚ) / signed b k = if a != b then -((j : ℚ) / k) else j / k := by
    cases a <;> cases b <;> simp [signed, neg_div, div_neg]
  have hsize : (n.natAbs : ℚ) / d.natAbs = wholeSize n d + restSize n d := by
    have hk : (d.natAbs : ℚ) ≠ 0 := Nat.cast_ne_zero.mpr (Int.natAbs_ne_zero.mpr hd)
    rw [div_eq_iff hk, add_mul, restSize, div_mul_cancel₀ _ hk]
    exact_mod_cast (Nat.div_add_mod' n.natAbs d.natAbs).symm
  rw [← hsize, isBelowZero, ← hsigned, signed_natAbs, signed_natAbs]

theorem restSize_pos (hr : n.tmod d ≠ 0) : 0 < restSize n d := by
  have hrest : n.natAbs % d.natAbs ≠ 0 := by
    rw [← Int.natAbs_tmod]
    exact Int.natAbs_ne_zero.mpr hr
  exact div_pos (Nat.cast_pos.mpr (Nat.pos_of_ne_zero hrest))
    (Nat.cast_pos.mpr (Int.natAbs_pos.mpr hd))

theorem restSize_lt_one : restSize n d < 1 := by
  have hpos := Int.natAbs_pos.mpr hd
  rw [restSize, div_lt_one (Nat.cast_pos.mpr hpos), Nat.cast_lt]
  exact Nat.mod_lt _ hpos

theorem compare_restSize :
    compare (2 * (n.tmod d).natAbs) d.natAbs = compare (restSize n d) (1 / 2) := by
  have hpos : (0 : ℚ) < d.natAbs := Nat.cast_pos.mpr (Int.natAbs_pos.mpr hd)
  have hrest : ((2 * (n.natAbs % d.natAbs) : Nat) : ℚ) = 2 * d.natAbs * restSize n d := by
    rw [restSize, mul_assoc, mul_div_cancel₀ _ hpos.ne']
    push_cast
    rfl
  have hhalf : (d.natAbs : ℚ) = 2 * d.natAbs * (1 / 2) := by ring
  calc
    _ = cmp (2 * (n.natAbs % d.natAbs)) d.natAbs := by rw [Int.natAbs_tmod, cmp_eq_compare]
    _ = cmp ((2 * (n.natAbs % d.natAbs) : Nat) : ℚ) (d.natAbs : ℚ) :=
      (Nat.strictMono_cast.cmp_map_eq _ _).symm
    _ = cmp (2 * d.natAbs * restSize n d) (2 * d.natAbs * (1 / 2)) := by rw [hrest, ← hhalf]
    _ = cmp (restSize n d) (1 / 2) := cmp_mul_pos_left (by positivity) _ _
    _ = _ := cmp_eq_compare _ _

theorem roundQuotient_of_inexact (mode : RoundingMode) (hr : n.tmod d ≠ 0) :
    mode.roundQuotient n d =
      match mode.awayFromZero? (isBelowZero n d) (wholeSize n d % 2 = 1)
        (compare (restSize n d) (1 / 2)) with
      | none => .error .roundingNecessary
      | some away => .ok (signed (isBelowZero n d) (wholeSize n d + if away then 1 else 0)) := by
  have hside : (decide (n < 0) != decide (d < 0)) = isBelowZero n d := rfl
  simp only [roundQuotient, if_neg hr, compare_restSize hd, hside, tdiv_eq_signed,
    signed_emod_two_eq_one]
  cases mode.awayFromZero? (isBelowZero n d) (wholeSize n d % 2 = 1)
    (compare (restSize n d) (1 / 2)) with
  | none => rfl
  | some away =>
    cases away with
    | false => rfl
    | true =>
      refine congrArg Except.ok ?_
      cases isBelowZero n d with
      | false => rfl
      | true =>
        change -(wholeSize n d : Int) - 1 = -((wholeSize n d + 1 : Nat) : Int)
        omega

/-- The rounded quotient is the integer that the mode takes for the exact one. -/
theorem roundQuotient_eq_ok_iff {mode : RoundingMode} {q : Int} :
    mode.roundQuotient n d = .ok q ↔ mode.Takes ((n : ℚ) / d) q := by
  by_cases hr : n.tmod d = 0
  · have hx : (n : ℚ) / d = (n.tdiv d : Int) := by
      rw [div_eq_iff (Int.cast_ne_zero.mpr hd)]
      exact_mod_cast (Int.tdiv_mul_cancel (Int.dvd_of_tmod_eq_zero hr)).symm
    rw [roundQuotient_exact mode hr, hx, takes_intCast, Except.ok.injEq, eq_comm]
  · rw [roundQuotient_of_inexact hd mode hr, cast_div_eq_signed hd,
      takes_signed_iff (restSize_pos hd hr) (restSize_lt_one hd)]
    cases mode.awayFromZero? (isBelowZero n d) (wholeSize n d % 2 = 1)
      (compare (restSize n d) (1 / 2)) with
    | none => simp
    | some away => simp [eq_comm]

/-- It fails where the mode takes none: there is a rest, and the mode is the one that refuses it. -/
theorem roundQuotient_eq_error_iff {mode : RoundingMode} {e : ArithmeticError} :
    mode.roundQuotient n d = .error e ↔ e = .roundingNecessary ∧ mode = unnecessary ∧ ¬ d ∣ n := by
  by_cases hr : n.tmod d = 0
  · simp [roundQuotient_exact mode hr, Int.dvd_of_tmod_eq_zero hr]
  · have hdvd : ¬ d ∣ n := fun h => hr (Int.tmod_eq_zero_of_dvd h)
    rw [roundQuotient_of_inexact hd mode hr]
    cases mode with
    | unnecessary => simp [awayFromZero?, hdvd, eq_comm]
    | _ => simp [awayFromZero?]

end Quotient

/-! ## The integer that a mode takes -/

section Number

variable {mode : RoundingMode} {x : ℚ}

theorem roundQuotient_num_den {n : Int} :
    mode.roundQuotient x.num x.den = .ok n ↔ mode.Takes x n := by
  have hx : (x.num : ℚ) / (x.den : Int) = x := by rw [Int.cast_natCast, Rat.num_div_den]
  rw [roundQuotient_eq_ok_iff (Int.natCast_ne_zero.mpr x.den_ne_zero), hx]

/-- A mode takes a number to one integer at most. -/
theorem takes_unique {m n : Int} (hm : mode.Takes x m) (hn : mode.Takes x n) : m = n := by
  rw [← roundQuotient_num_den] at hm hn
  exact Except.ok.inj (hm.symm.trans hn)

/-- Every mode but one takes every number somewhere. -/
theorem exists_takes (h : mode ≠ unnecessary) (x : ℚ) : ∃ n, mode.Takes x n := by
  have hd : (x.den : Int) ≠ 0 := Int.natCast_ne_zero.mpr x.den_ne_zero
  cases hq : mode.roundQuotient x.num x.den with
  | ok n => exact ⟨n, roundQuotient_num_den.mp hq⟩
  | error e => exact absurd ((roundQuotient_eq_error_iff hd).mp hq).2.1 h

/-- No mode goes past an integer. -/
theorem isNeighbour_of_takes {n : Int} (h : mode.Takes x n) : IsNeighbour x n := by
  have hnearest (hn : IsNearestInteger x n) : IsNeighbour x n := by
    refine (hn ⌊x⌋).trans_lt ?_
    rw [abs_lt]
    have := Int.floor_le x
    have := Int.lt_floor_add_one x
    constructor <;> linarith
  cases mode with
  | up => exact h.1
  | down => exact h.1
  | ceiling =>
    obtain rfl : n = ⌈x⌉ := h
    have := Int.le_ceil x
    have := Int.ceil_lt_add_one x
    rw [IsNeighbour, abs_lt]
    constructor <;> linarith
  | floor =>
    obtain rfl : n = ⌊x⌋ := h
    have := Int.floor_le x
    have := Int.lt_floor_add_one x
    rw [IsNeighbour, abs_lt]
    constructor <;> linarith
  | halfUp => exact hnearest h.1
  | halfDown => exact hnearest h.1
  | halfEven => exact hnearest h.1
  | unnecessary =>
    obtain rfl : (n : ℚ) = x := h
    simp [IsNeighbour]

theorem le_natAbs_of_takes {n : Int} (h : mode.Takes x n) {k : Nat} (hk : (k : ℚ) ≤ |x|) :
    k ≤ n.natAbs := by
  have hn : (k : ℚ) < n.natAbs + 1 := by
    have := abs_sub_abs_le_abs_sub x n
    have := isNeighbour_of_takes h
    rw [IsNeighbour, abs_sub_comm] at this
    rw [Nat.cast_natAbs, Int.cast_abs]
    linarith
  exact Nat.lt_succ_iff.mp (by exact_mod_cast hn)

theorem natAbs_le_of_takes {n : Int} (h : mode.Takes x n) {k : Nat} (hk : |x| ≤ k) :
    n.natAbs ≤ k := by
  have hn : (n.natAbs : ℚ) < k + 1 := by
    have := abs_sub_abs_le_abs_sub (n : ℚ) x
    have := isNeighbour_of_takes h
    rw [IsNeighbour] at this
    rw [Nat.cast_natAbs, Int.cast_abs]
    linarith
  exact Nat.lt_succ_iff.mp (by exact_mod_cast hn)

end Number

end RoundingMode

end ExactDecimal
