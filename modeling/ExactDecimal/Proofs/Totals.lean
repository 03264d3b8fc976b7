import ExactDecimal.Proofs.Arithmetic
import Mathlib.Algebra.BigOperators.Group.List.Basic
/-!
Totals and products of lists. A total has the exact sum of the values, at the largest scale that
occurs and at least at zero, so the order of the items cannot be seen in it. A product has the
product of the magnitudes at the sum of the scales, but it exists only if no partial sum of the
scales leaves the range: an order may fail where another one succeeds, and of those that succeed
all end in one decimal.
-/
namespace ExactDecimal.Decimal

/-! ## Totals -/

/-- The largest of the scales, and zero if none is above it. -/
def largestScale (ds : List Decimal) : Int := (ds.map scale).foldr Max.max 0

theorem value_foldl_add (a : Decimal) (ds : List Decimal) :
    (ds.foldl (· + ·) a).value = a.value + (ds.map value).sum := by
  induction ds generalizing a with
  | nil => simp
  | cons d ds ih => rw [List.foldl_cons, ih, value_add, List.map_cons, List.sum_cons, add_assoc]

theorem scale_foldl_add (a : Decimal) (ds : List Decimal) :
    (ds.foldl (· + ·) a).scale = (ds.map scale).foldr Max.max a.scale := by
  induction ds generalizing a with
  | nil => rfl
  | cons d ds ih =>
    have hmax (s t : Int) (ss : List Int) :
        ss.foldr Max.max (Max.max s t) = Max.max t (ss.foldr Max.max s) := by
      induction ss with
      | nil => exact max_comm s t
      | cons u ss ih => rw [List.foldr_cons, List.foldr_cons, ih, max_left_comm]
    rw [List.foldl_cons, ih, scale_add, hmax, List.map_cons, List.foldr_cons]

@[simp] theorem value_sum (ds : List Decimal) : (sum ds).value = (ds.map value).sum := by
  rw [sum, sumOver]
  exact (value_foldl_add zero ds).trans (by rw [zero, value_ofInt, Int.cast_zero, zero_add])

@[simp] theorem scale_sum (ds : List Decimal) : (sum ds).scale = largestScale ds :=
  scale_foldl_add zero ds

theorem largestScale_perm {ds es : List Decimal} (h : ds.Perm es) :
    largestScale ds = largestScale es := (h.map scale).foldr_eq 0

theorem sum_perm {ds es : List Decimal} (h : ds.Perm es) : sum ds = sum es := by
  apply eq_of_value_eq
  · rw [scale_sum, scale_sum, largestScale_perm h]
  · rw [value_sum, value_sum, (h.map value).sum_eq]

/-! ## Products -/

/-- Whether no partial sum of the scales, counted on from `start`, leaves the range. -/
def PrefixesFit (start : Int) (ds : List Decimal) : Prop :=
  ∀ front, front <+: ds → ScaleFits (start + (front.map scale).sum)

@[simp] theorem prefixesFit_nil {start : Int} : PrefixesFit start [] ↔ ScaleFits start := by
  simp [PrefixesFit]

@[simp] theorem prefixesFit_cons {start : Int} {d : Decimal} {ds : List Decimal} :
    PrefixesFit start (d :: ds) ↔ ScaleFits start ∧ PrefixesFit (start + d.scale) ds := by
  constructor
  · intro h
    constructor
    · simpa using h [] List.nil_prefix
    · intro front hf
      simpa [add_assoc] using h (d :: front) (List.cons_prefix_cons.mpr ⟨rfl, hf⟩)
  · rintro ⟨hs, h⟩ front hf
    obtain rfl | ⟨rest, rfl, hr⟩ := List.prefix_cons_iff.mp hf
    · simpa using hs
    · simpa [add_assoc] using h rest hr

theorem foldlM_mul?_of_fit {a : Decimal} {ds : List Decimal} (h : PrefixesFit a.scale ds) :
    ∃ p, ds.foldlM mul? a = .ok p ∧ p.magnitude = a.magnitude * (ds.map magnitude).prod ∧
      p.scale = a.scale + (ds.map scale).sum := by
  induction ds generalizing a with
  | nil => exact ⟨a, rfl, (mul_one _).symm, (add_zero _).symm⟩
  | cons d ds ih =>
    obtain ⟨-, h⟩ := prefixesFit_cons.mp h
    have hs : ScaleFits (a.scale + d.scale) := by simpa using h [] List.nil_prefix
    obtain ⟨b, hb⟩ := exists_mul?_iff.mpr hs
    obtain ⟨hbm, hbs⟩ := mul?_eq_ok_iff.mp hb
    obtain ⟨p, hp, hm, hs⟩ := ih (hbs ▸ h)
    refine ⟨p, ?_, ?_, ?_⟩
    · rw [List.foldlM_cons, hb, ok_bind, hp]
    · rw [hm, hbm, List.map_cons, List.prod_cons, mul_assoc]
    · rw [hs, hbs, List.map_cons, List.sum_cons, add_assoc]

/-- The first partial sum that leaves the range ends the product. -/
theorem foldlM_mul?_of_not_fit {a : Decimal} {ds : List Decimal} (h : ¬ PrefixesFit a.scale ds) :
    ds.foldlM mul? a = .error .scaleOverflow := by
  induction ds generalizing a with
  | nil => exact absurd (prefixesFit_nil.mpr a.scale_fits) h
  | cons d ds ih =>
    rw [List.foldlM_cons]
    by_cases hs : ScaleFits (a.scale + d.scale)
    · obtain ⟨b, hb⟩ := exists_mul?_iff.mpr hs
      rw [hb, ok_bind]
      refine ih fun hf => h (prefixesFit_cons.mpr ⟨a.scale_fits, ?_⟩)
      rwa [← scale_of_mul? hb]
    · rw [mul?_eq_error_iff.mpr ⟨rfl, hs⟩, error_bind]

theorem exists_product {ds : List Decimal} (h : PrefixesFit 0 ds) :
    ∃ p, product ds = .ok p ∧ p.magnitude = (ds.map magnitude).prod ∧
      p.scale = (ds.map scale).sum := by
  obtain ⟨p, hp, hm, hs⟩ := foldlM_mul?_of_fit (a := one) h
  exact ⟨p, hp, hm.trans (one_mul _), hs.trans (zero_add _)⟩

theorem product_of_not_fit {ds : List Decimal} (h : ¬ PrefixesFit 0 ds) :
    product ds = .error .scaleOverflow := foldlM_mul?_of_not_fit (a := one) h

theorem product_eq_ok_iff {ds : List Decimal} {p : Decimal} :
    product ds = .ok p ↔ PrefixesFit 0 ds ∧
      p.magnitude = (ds.map magnitude).prod ∧ p.scale = (ds.map scale).sum := by
  by_cases h : PrefixesFit 0 ds
  · obtain ⟨q, hq, hm, hs⟩ := exists_product h
    rw [hq]
    constructor
    · intro e
      cases e
      exact ⟨h, hm, hs⟩
    · rintro ⟨-, hpm, hps⟩
      exact congrArg Except.ok (Decimal.ext (hm.trans hpm.symm) (hs.trans hps.symm))
  · simp [product_of_not_fit h, h]

theorem product_eq_error_iff {ds : List Decimal} {e : ArithmeticError} :
    product ds = .error e ↔ e = .scaleOverflow ∧ ¬ PrefixesFit 0 ds := by
  by_cases h : PrefixesFit 0 ds
  · obtain ⟨q, hq, -⟩ := exists_product h
    simp [hq, h]
  · simp [product_of_not_fit h, h, eq_comm]

theorem not_prefixesFit_zero_iff {ds : List Decimal} :
    ¬ PrefixesFit 0 ds ↔ ∃ front, front <+: ds ∧ ¬ ScaleFits (front.map scale).sum := by
  simp only [PrefixesFit, zero_add, not_forall, exists_prop]

theorem product_perm {ds es : List Decimal} (h : ds.Perm es) {p q : Decimal}
    (hp : product ds = .ok p) (hq : product es = .ok q) : p = q := by
  obtain ⟨-, hpm, hps⟩ := product_eq_ok_iff.mp hp
  obtain ⟨-, hqm, hqs⟩ := product_eq_ok_iff.mp hq
  apply Decimal.ext
  · rw [hpm, hqm, (h.map magnitude).prod_eq]
  · rw [hps, hqs, (h.map scale).sum_eq]

/-! ## Items that are references -/

theorem sumOver_eq {ι : Type} (read : ι → Decimal) (items : List ι) :
    sumOver read items = sum (items.map read) := List.foldl_map.symm

theorem productOver_eq {ι : Type} (read : ι → Decimal) (items : List ι) :
    productOver read items = product (items.map read) := List.foldlM_map.symm

/-- A total always exists and is exact, at the largest scale, and at zero if no scale is above it.
A product is that of the magnitudes at the sum of the scales; it fails, with its message, if and
only if the scales of some part of the list from its beginning add up to none, whatever the
magnitudes are. The order of the items does not matter, as far as there is a result, and neither
does it matter whether the items are decimals or references to decimals. -/
theorem totals_and_products (ds : List Decimal) :
    ((sum ds).value = (ds.map value).sum ∧ (sum ds).scale = largestScale ds) ∧
    (∀ es, ds.Perm es → sum es = sum ds) ∧
    (∀ p, product ds = .ok p →
      p.magnitude = (ds.map magnitude).prod ∧ p.scale = (ds.map scale).sum) ∧
    (∀ failure, (product ds).mapError Failure.product = .error failure ↔
      failure = .product .scaleOverflow ∧
        ∃ front, front <+: ds ∧ ¬ ScaleFits (front.map scale).sum) ∧
    (Failure.product .scaleOverflow).message =
      "decimal multiplication failed: scale out of range" ∧
    (∀ es p q, ds.Perm es → product ds = .ok p → product es = .ok q → p = q) ∧
    (∀ (ι : Type) (read : ι → Decimal) (items : List ι), items.map read = ds →
      sumOver read items = sum ds ∧ productOver read items = product ds) := by
  refine ⟨⟨value_sum ds, scale_sum ds⟩, fun es h => (sum_perm h).symm, ?_, ?_, rfl,
    fun es p q h => product_perm h, ?_⟩
  · intro p hp
    exact (product_eq_ok_iff.mp hp).2
  · intro failure
    simp only [mapError_eq_error_iff, product_eq_error_iff, not_prefixesFit_zero_iff]
    constructor
    · rintro ⟨cause, ⟨rfl, hf⟩, rfl⟩
      exact ⟨rfl, hf⟩
    · rintro ⟨rfl, hf⟩
      exact ⟨.scaleOverflow, ⟨rfl, hf⟩, rfl⟩
  · rintro ι read items rfl
    exact ⟨sumOver_eq read items, productOver_eq read items⟩

/-- A zero at the largest scale: one more place is too much, even for a product that is zero, and
in two other orders there is never one too many. -/
theorem totals_and_products_at_largest_scale :
    let zero : Decimal := ⟨0, 2147483647, by decide⟩
    let two : Decimal := ⟨2, 1, by decide⟩
    let three : Decimal := ⟨3, -5, by decide⟩
    sum [three, two] = sum [two, three] ∧
    (product [zero, two, three]).mapError Failure.product = .error (.product .scaleOverflow) ∧
    (∃ p q, product [zero, three, two] = .ok p ∧ product [three, zero, two] = .ok q ∧ p = q) ∧
    sumOver (fun k => [two, three].getD k zero) [1, 0] = sum [three, two] := by
  intro zero two three
  obtain ⟨-, hperm, -⟩ := totals_and_products [two, three]
  obtain ⟨-, -, -, herror, -⟩ := totals_and_products [zero, two, three]
  obtain ⟨-, -, -, -, -, hproduct, -⟩ := totals_and_products [zero, three, two]
  obtain ⟨-, -, -, -, -, -, hread⟩ := totals_and_products [three, two]
  refine ⟨hperm _ (.swap _ _ _), (herror _).mpr ⟨rfl, [zero, two], ⟨[three], rfl⟩, by decide⟩,
    ⟨_, _, rfl, rfl, hproduct _ _ _ (.swap _ _ _) rfl rfl⟩, (hread Nat _ _ rfl).1⟩

end ExactDecimal.Decimal
