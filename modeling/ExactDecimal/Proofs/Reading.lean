import ExactDecimal.Text
import ExactDecimal.Proofs.Grammar
import ExactDecimal.Proofs.Value
import Mathlib.Data.List.TakeWhile
/-!
Reading accepts exactly the spelled texts whose exponent and scale are in range, and yields the
exact value that is spelled. Each part of the reader is run forward on what is spelled, and
backward from a success to a spelling of its text.
-/
namespace ExactDecimal

@[simp] theorem signed_zero (negative : Bool) : signed negative 0 = 0 := by
  cases negative <;> rfl

theorem signed_eq_zero {negative : Bool} {n : Nat} : signed negative n = 0 ↔ n = 0 := by
  cases negative <;> simp [signed]

theorem signed_mul (negative : Bool) (n k : Nat) :
    signed negative (n * k) = signed negative n * k := by
  cases negative <;> simp [signed]

theorem le_of_scaleFits_signed {negative : Bool} {n : Nat} (h : ScaleFits (signed negative n)) :
    n ≤ 2147483648 := by
  cases negative with
  | false =>
    have : (n : Int) ≤ 2147483647 := h.2
    omega
  | true =>
    have : -2147483648 ≤ -(n : Int) := h.1
    omega

namespace Text

/-! ## Signs and markers -/

theorem splitSign_of_not_startsSigned {text : List Char} (h : ¬ StartsSigned text) :
    splitSign text = (false, text) := by
  rw [splitSign.eq_def]
  split
  · exact absurd (.inr rfl) h
  · exact absurd (.inl rfl) h
  · rfl

/-- Only an absent sign has to be told from one that the rest begins with. -/
theorem splitSign_chars_append {sign : Sign} {text : List Char}
    (h : sign = .absent → ¬ StartsSigned text) :
    splitSign (sign.chars ++ text) = (sign.isMinus, text) := by
  cases sign with
  | absent => exact splitSign_of_not_startsSigned (h rfl)
  | plus => rfl
  | minus => rfl

theorem splitSign_append (sign : Sign) {text : List Char} (h : ¬ StartsSigned text) :
    splitSign (sign.chars ++ text) = (sign.isMinus, text) := splitSign_chars_append fun _ => h

/-- Every text is a sign, if only an absent one, and the rest that the reader goes on with. -/
theorem exists_sign (text : List Char) :
    ∃ sign : Sign, text = sign.chars ++ (splitSign text).2 ∧
      (splitSign text).1 = sign.isMinus ∧
      (sign = .absent → ¬ StartsSigned (splitSign text).2) := by
  rw [splitSign.eq_def]
  split
  · exact ⟨.minus, rfl, rfl, nofun⟩
  · exact ⟨.plus, rfl, rfl, nofun⟩
  · rename_i hminus hplus
    refine ⟨.absent, rfl, rfl, fun _ h => ?_⟩
    obtain h | h := h
    · obtain ⟨rest, rfl⟩ := List.head?_eq_some_iff.mp h
      exact hplus rest rfl
    · obtain ⟨rest, rfl⟩ := List.head?_eq_some_iff.mp h
      exact hminus rest rfl

theorem splitMarker_of_forall {text : List Char} (h : ∀ c ∈ text, isMarker c = false) :
    splitMarker text = (text, none) := by
  have hp : ∀ c ∈ text, (!isMarker c) = true := by simpa using h
  rw [splitMarker, List.takeWhile_eq_self_iff.mpr hp, List.dropWhile_eq_nil_iff.mpr hp]
  rfl

theorem splitMarker_append {text : List Char} (h : ∀ c ∈ text, isMarker c = false)
    {marker : Char} (hm : isMarker marker = true) (rest : List Char) :
    splitMarker (text ++ marker :: rest) = (text, some rest) := by
  have hp : ∀ c ∈ text, (!isMarker c) = true := by simpa using h
  rw [splitMarker, List.takeWhile_append_of_pos hp, List.dropWhile_append_of_pos hp]
  simp [hm]

/-- Every text is without a marker, or is split at its first one. -/
theorem splitMarker_cases (text : List Char) :
    (∀ c ∈ text, isMarker c = false) ∨
      ∃ before marker after, text = before ++ marker :: after ∧
        (∀ c ∈ before, isMarker c = false) ∧ isMarker marker = true := by
  induction text with
  | nil => exact .inl fun _ h => nomatch h
  | cons c text ih =>
    by_cases hc : isMarker c = true
    · exact .inr ⟨[], c, text, rfl, fun _ h => (nomatch h), hc⟩
    · rw [Bool.not_eq_true] at hc
      cases ih with
      | inl h => exact .inl (List.forall_mem_cons.mpr ⟨hc, h⟩)
      | inr h =>
        obtain ⟨before, marker, after, rfl, hb, hm⟩ := h
        exact .inr ⟨c :: before, marker, after, rfl, List.forall_mem_cons.mpr ⟨hc, hb⟩, hm⟩

/-! ## The mantissa -/

theorem Figures.takeWhile_chars (f : Figures) : f.chars.takeWhile Char.isDigit = f.whole := by
  have hw : ∀ c ∈ f.whole, c.isDigit = true := f.digits_spec.left
  rw [chars, List.takeWhile_append_of_pos hw]
  cases f.fraction with
  | none => exact List.append_nil _
  | some fraction => exact List.append_nil _

theorem Figures.dropWhile_chars (f : Figures) :
    f.chars.dropWhile Char.isDigit = f.fraction.elim [] ('.' :: ·) := by
  have hw : ∀ c ∈ f.whole, c.isDigit = true := f.digits_spec.left
  rw [chars, List.dropWhile_append_of_pos hw]
  cases f.fraction with
  | none => rfl
  | some fraction => rfl

theorem Mantissa.read_chars (f : Figures) : read f.chars = .ok f.mantissa := by
  have hf : ∀ c ∈ f.fraction.getD [], c.isDigit = true := f.digits_spec.right
  have hne : f.mantissa.digits.isEmpty = false := List.isEmpty_eq_false_iff.mpr f.digits_ne_nil
  have hc : check f.mantissa = .ok f.mantissa := by
    rw [check, hne]
    rfl
  rw [← hc, Figures.mantissa, read, f.takeWhile_chars, f.dropWhile_chars]
  cases h : f.fraction with
  | none => rfl
  | some fraction =>
    rw [h, Option.getD_some] at hf
    simp only [Option.elim_some, List.dropWhile_eq_nil_iff.mpr hf]
    rfl

theorem Mantissa.check_eq_ok {m m' : Mantissa} (h : check m = .ok m') :
    m = m' ∧ m.digits ≠ [] := by
  rw [check] at h
  split at h
  · exact nomatch h
  · rename_i hne
    exact ⟨Except.ok.inj h, by simpa using hne⟩

theorem Mantissa.exists_figures_of_read {text : List Char} {m : Mantissa}
    (h : read text = .ok m) : ∃ f : Figures, f.chars = text := by
  have hw : Digits (text.takeWhile Char.isDigit) := fun c hc => List.mem_takeWhile_imp hc
  have ht := List.takeWhile_append_dropWhile (p := Char.isDigit) (l := text)
  rw [read] at h
  split at h
  · rename_i hd
    obtain ⟨-, hne⟩ := check_eq_ok h
    rw [hd] at ht
    exact ⟨⟨_, none, hw.append digits_nil, hne⟩, ht⟩
  · rename_i rest hd
    split at h
    · rename_i hr
      obtain ⟨-, hne⟩ := check_eq_ok h
      rw [hd] at ht
      exact ⟨⟨_, some rest, hw.append (List.dropWhile_eq_nil_iff.mp hr), hne⟩, ht⟩
    · exact nomatch h
    · exact nomatch h
  · exact nomatch h

/-! ## The exponent -/

/-- The early stop only drops exponents that are out of range with either sign. -/
theorem readExponent_tail (e : Exponent) :
    readExponent e.tail =
      if ScaleFits e.value then .ok e.value else .error .malformedExponent := by
  have hs := splitSign_append e.sign (not_startsSigned_digits e.digits_spec e.digits_ne_nil)
  have hd : e.digits.all Char.isDigit = true := List.all_eq_true.mpr e.digits_spec
  have hne : e.digits.isEmpty = false := List.isEmpty_eq_false_iff.mpr e.digits_ne_nil
  rw [readExponent, Exponent.tail, hs]
  simp only [hd, hne, if_true, Bool.false_eq_true, if_false, ofNumeralUpTo?_eq]
  by_cases hn : ofNumeral e.digits ≤ 2147483648
  · rw [if_pos hn]
    rfl
  · have hf : ¬ ScaleFits e.value := fun hf => hn (le_of_scaleFits_signed hf)
    rw [if_neg hn, if_neg hf]

theorem exists_exponent_of_read {text : List Char} {k : Int} (h : readExponent text = .ok k)
    {marker : Char} (hm : isMarker marker = true) : ∃ e : Exponent, e.chars = marker :: text := by
  obtain ⟨sign, ht, -⟩ := exists_sign text
  simp only [readExponent] at h
  split at h
  · exact nomatch h
  · rename_i hne
    rw [Bool.not_eq_true, List.isEmpty_eq_false_iff] at hne
    split at h
    · rename_i hd
      exact ⟨⟨marker, sign, _, hm, List.all_eq_true.mp hd, hne⟩, congrArg (marker :: ·) ht.symm⟩
    · exact nomatch h

/-! ## The whole text -/

/-- A text is spelled, behind any sign, if what stands before its marker is spelled and what
follows is read by a reader that only accepts exponents. -/
theorem exists_spelling {ε : Type} (sign : Sign) {text : List Char} {f : Figures}
    {read : List Char → Except ε Int} {exponent : Option Int}
    (hf : f.chars = (splitMarker text).1) (he : (splitMarker text).2.mapM read = .ok exponent)
    (hread : ∀ before marker after k, text = before ++ marker :: after →
      (∀ c ∈ before, isMarker c = false) → isMarker marker = true → read after = .ok k →
      ∃ e : Exponent, e.chars = marker :: after) :
    ∃ s : Spelling, s.chars = sign.chars ++ text := by
  cases splitMarker_cases text with
  | inl hn =>
    rw [splitMarker_of_forall hn] at hf
    refine ⟨⟨sign, f, none⟩, ?_⟩
    rw [Spelling.chars, Spelling.body_of_none rfl, hf]
  | inr hn =>
    obtain ⟨before, marker, after, rfl, hn, hm⟩ := hn
    rw [splitMarker_append hn hm] at hf he
    rw [Option.mapM_some] at he
    obtain ⟨k, hk, -⟩ := bind_eq_ok he
    obtain ⟨e, hchars⟩ := hread before marker after k rfl hn hm hk
    refine ⟨⟨sign, f, some e⟩, ?_⟩
    rw [Spelling.chars, Spelling.body, Option.elim_some, hf, hchars]

namespace Spelling

theorem splitSign_chars (s : Spelling) : splitSign s.chars = (s.sign.isMinus, s.body) :=
  splitSign_append s.sign s.not_startsSigned_body

theorem splitMarker_body (s : Spelling) :
    splitMarker s.body = (s.figures.chars, s.exponent.map Exponent.tail) := by
  have hf : ∀ c ∈ s.figures.chars, isMarker c = false := fun _ hc => Figures.not_isMarker hc
  cases he : s.exponent with
  | none =>
    rw [s.body_of_none he]
    exact splitMarker_of_forall hf
  | some e =>
    rw [s.body_of_some he]
    exact splitMarker_append hf e.marker_spec e.tail

/-- The reader applies the exponent to the digits, and the sign afterwards. -/
theorem parts_eq_applyExponent (s : Spelling) :
    s.parts = (applyExponent s.figures.number s.places (s.exponent.map Exponent.value)).map
      (signed s.sign.isMinus) id := by
  rw [parts]
  cases s.exponent with
  | none => rfl
  | some e =>
    simp only [coefficient, signed_eq_zero, Option.map_some, applyExponent]
    split
    · rw [Prod.map_apply, signed_zero, id]
    · split
      · rw [Prod.map_apply, signed_mul, id]
      · rfl

/-- The decimal that is spelled, if exponent and scale are in range. -/
def decimal? (s : Spelling) : Option Decimal :=
  if ScaleFits s.power then Decimal.ofParts? s.parts.1 s.parts.2 else none

/-- The reader on a spelled text: out of range is all that can be wrong with it. -/
theorem ofChars_chars (s : Spelling) :
    Decimal.ofChars s.chars = s.decimal?.elim (.error .malformedExponent) .ok := by
  have hp := s.parts_eq_applyExponent
  simp only [Decimal.ofChars, splitSign_chars, splitMarker_body, Mantissa.read_chars, ok_bind]
  rw [decimal?]
  cases he : s.exponent with
  | none =>
    rw [he] at hp
    rw [power_of_none he, hp]
    rfl
  | some e =>
    rw [he] at hp
    rw [power_of_some he, hp, Option.map_some, Option.mapM_some, readExponent_tail]
    split
    · rfl
    · rfl

/-- Backward: the text of a success is spelled. -/
theorem exists_spelling_of_ofChars {text : List Char} {d : Decimal}
    (h : Decimal.ofChars text = .ok d) : ∃ s : Spelling, s.chars = text := by
  obtain ⟨sign, ht, -⟩ := exists_sign text
  obtain ⟨m, hm, h⟩ := bind_eq_ok h
  obtain ⟨exponent, he, -⟩ := bind_eq_ok h
  obtain ⟨f, hf⟩ := Mantissa.exists_figures_of_read hm
  rw [ht]
  apply exists_spelling sign hf he
  intro before marker after k _ _ hmarker hk
  exact exists_exponent_of_read hk hmarker

end Spelling

end Text

namespace Decimal

open Text

/-- The coefficient times the power of ten that is left of the exponent once the places are taken
off. Where zeros are written out, the power is put into the magnitude; zero has no power. -/
theorem value_of_parts {s : Spelling} {d : Decimal} (hm : d.magnitude = s.parts.1)
    (hs : d.scale = s.parts.2) : d.value = s.coefficient * 10 ^ (s.power - s.places) := by
  rw [Spelling.parts] at hm hs
  cases he : s.exponent with
  | none =>
    simp only [he] at hm hs
    rw [value, hm, hs, Spelling.power_of_none he, Int.zero_sub]
  | some e =>
    simp only [he] at hm hs
    rw [value, Spelling.power_of_some he]
    by_cases hz : s.coefficient = 0
    · rw [if_pos hz] at hm
      rw [hm, hz, Int.cast_zero, zero_mul, zero_mul]
    · rw [if_neg hz] at hm hs
      by_cases hlt : s.places < e.value
      · rw [if_pos hlt] at hm hs
        rw [hm, hs, Int.cast_mul, Int.cast_natCast, cast_pow10_toNat (by omega), neg_zero, zpow_zero,
          mul_one]
      · rw [if_neg hlt] at hm hs
        rw [hm, hs, neg_sub]

theorem parts_scale_nonneg (s : Spelling) : 0 ≤ s.parts.2 := by
  rw [Spelling.parts]
  split
  · exact Int.natCast_nonneg _
  · split
    · exact le_refl 0
    · split
      · exact le_refl 0
      · change 0 ≤ (s.places : Int) - _
        omega

/-- What a spelled text is read as. -/
theorem ofChars_eq_ok_iff {s : Spelling} {d : Decimal} :
    ofChars s.chars = .ok d ↔
      ScaleFits s.power ∧ d.magnitude = s.parts.1 ∧ d.scale = s.parts.2 := by
  rw [Spelling.ofChars_chars, Spelling.decimal?]
  constructor
  · intro h
    split at h
    · rename_i hp
      rw [ofParts?] at h
      split at h
      · cases h
        exact ⟨hp, rfl, rfl⟩
      · cases h
    · cases h
  · rintro ⟨hp, hm, hs⟩
    rw [if_pos hp, ← hm, ← hs, ofParts?_self]
    rfl

/-- The language of the reader, and what it reads: a text is accepted exactly if it has a spelling
whose exponent and scale are in range, and then the result has the spelled parts and value. -/
theorem ofText_reads_spellings (text : String) :
    ((∃ d, ofText text = .ok d) ↔ ∃ s : Spelling, s.chars = text.toList ∧ s.InRange) ∧
    ∀ (s : Spelling) (d : Decimal), s.chars = text.toList → ofText text = .ok d →
      d.magnitude = s.parts.1 ∧ d.scale = s.parts.2 ∧
      d.value = s.coefficient * 10 ^ (s.power - s.places) ∧ 0 ≤ d.scale := by
  have reads (s : Spelling) (d : Decimal) (ht : s.chars = text.toList)
      (h : ofText text = .ok d) :
      ScaleFits s.power ∧ d.magnitude = s.parts.1 ∧ d.scale = s.parts.2 :=
    ofChars_eq_ok_iff.mp (ht ▸ h)
  refine ⟨⟨?_, ?_⟩, ?_⟩
  · rintro ⟨d, h⟩
    obtain ⟨s, ht⟩ := Spelling.exists_spelling_of_ofChars h
    obtain ⟨hp, -, hs⟩ := reads s d ht h
    exact ⟨s, ht, hp, hs ▸ d.scale_fits⟩
  · rintro ⟨s, ht, hp, hs⟩
    refine ⟨⟨s.parts.1, s.parts.2, hs⟩, ?_⟩
    rw [ofText, ← ht, ofChars_eq_ok_iff]
    exact ⟨hp, rfl, rfl⟩
  · intro s d ht h
    obtain ⟨-, hm, hs⟩ := reads s d ht h
    exact ⟨hm, hs, value_of_parts hm hs, hs ▸ parts_scale_nonneg s⟩

/-- Zeros in front, a point, and an exponent that makes the scale as large as it can be. -/
def widestSpelling : Spelling where
  sign := .minus
  figures := ⟨['0', '0'], some ['5', '0'], by decide, by decide⟩
  exponent := some ⟨'E', .minus, "02147483645".toList, by decide, by decide, by decide⟩

theorem ofText_reads_widestSpelling :
    ∃ d, ofText "-00.50E-02147483645" = .ok d ∧ d.magnitude = -50 ∧ d.scale = 2147483647 ∧
      d.value = (-50 : Int) * 10 ^ (-2147483645 - 2 : Int) ∧ 0 ≤ d.scale := by
  have h := ofText_reads_spellings "-00.50E-02147483645"
  obtain ⟨d, hd⟩ := h.1.mpr ⟨widestSpelling, by decide, by decide⟩
  exact ⟨d, hd, h.2 widestSpelling d (by decide) hd⟩

end Decimal

end ExactDecimal
