import ExactDecimal.Proofs.Reading
import Mathlib.Data.List.Basic
import Mathlib.Data.List.Induction
/-!
Why a text is refused. Every text has a sign, if only an absent one, then a mantissa up to the first
marker, and perhaps a marker with something behind it. The mantissa is looked at first, and in it
the leftmost character that is out of place decides, whatever stands to its right; after that the
exponent, and last the scale. So a text with several faults is refused for the first of them, and no
text is refused for anything else.
-/
namespace ExactDecimal.Text

/-! ## Characters out of place -/

/-- Whether `c` is out of place in a mantissa that begins with `before`: it is neither a digit nor
the first point. -/
def Misplaced (before : List Char) (c : Char) : Prop :=
  c.isDigit = false ∧ (c = '.' → '.' ∈ before)

/-- Whether every character of a mantissa is in place. -/
def InPlace (mantissa : List Char) : Prop :=
  ∀ before c after, mantissa = before ++ c :: after → ¬ Misplaced before c

/-- Whether `c` is the leftmost character of a mantissa that is out of place. -/
def FirstMisplaced (mantissa : List Char) (c : Char) : Prop :=
  ∃ before after, mantissa = before ++ c :: after ∧ InPlace before ∧ Misplaced before c

theorem inPlace_nil : InPlace [] := by
  intro before c after h
  simp at h

/-- Whether a character is in place hangs on what is to its left alone. -/
theorem inPlace_append_singleton {text : List Char} {c : Char} :
    InPlace (text ++ [c]) ↔ InPlace text ∧ ¬ Misplaced text c := by
  constructor
  · intro h
    refine ⟨?_, h text c [] rfl⟩
    rintro before d after rfl
    exact h before d (after ++ [c]) (by simp)
  · rintro ⟨ht, hc⟩ before d after h
    obtain rfl | ⟨rest, last, rfl⟩ := List.eq_nil_or_concat' after
    · obtain ⟨rfl, hd⟩ := List.append_inj' h rfl
      cases hd
      exact hc
    · rw [← List.cons_append, ← List.append_assoc] at h
      obtain ⟨rfl, -⟩ := List.append_inj' h rfl
      exact ht before d rest rfl

theorem inPlace_or_firstMisplaced (mantissa : List Char) :
    InPlace mantissa ∨ ∃ c, FirstMisplaced mantissa c := by
  induction mantissa using List.reverseRecOn with
  | nil => exact .inl inPlace_nil
  | append_singleton text c ih =>
    cases ih with
    | inl ht =>
      by_cases hc : Misplaced text c
      · exact .inr ⟨c, text, [], rfl, ht, hc⟩
      · exact .inl (inPlace_append_singleton.mpr ⟨ht, hc⟩)
    | inr h =>
      obtain ⟨d, before, after, rfl, hb, hd⟩ := h
      exact .inr ⟨d, before, after ++ [c], by simp, hb, hd⟩

/-- Characters in place are digits, or digits on both sides of one point. -/
theorem InPlace.cases {mantissa : List Char} (h : InPlace mantissa) :
    Digits mantissa ∨
      ∃ whole fraction, mantissa = whole ++ '.' :: fraction ∧ Digits whole ∧ Digits fraction := by
  induction mantissa using List.reverseRecOn with
  | nil => exact .inl digits_nil
  | append_singleton text c ih =>
    obtain ⟨ht, hc⟩ := inPlace_append_singleton.mp h
    by_cases hd : c.isDigit = true
    · have hlast : Digits [c] := List.forall_mem_singleton.mpr hd
      obtain ht | ⟨whole, fraction, rfl, hw, hf⟩ := ih ht
      · exact .inl (ht.append hlast)
      · exact .inr ⟨whole, fraction ++ [c], by simp, hw, hf.append hlast⟩
    · -- what is no digit can only be the first point
      obtain ⟨rfl, hfirst⟩ : c = '.' ∧ '.' ∉ text := by
        rw [Misplaced, not_and, Classical.not_imp] at hc
        exact hc (Bool.eq_false_iff.mpr hd)
      obtain ht | ⟨whole, fraction, rfl, -, -⟩ := ih ht
      · exact .inr ⟨text, [], rfl, ht, digits_nil⟩
      · exact absurd (by simp) hfirst

/-- A mantissa in place that has a digit is spelled. -/
theorem InPlace.exists_figures {mantissa : List Char} (h : InPlace mantissa)
    (hd : ∃ c ∈ mantissa, c.isDigit = true) : ∃ f : Figures, f.chars = mantissa := by
  obtain ⟨c, hc, hd⟩ := hd
  obtain hm | ⟨whole, fraction, rfl, hw, hf⟩ := h.cases
  · have hne : mantissa ++ [] ≠ [] := by simp [List.ne_nil_of_mem hc]
    exact ⟨⟨mantissa, none, hm.append digits_nil, hne⟩, List.append_nil _⟩
  · have hne : whole ++ fraction ≠ [] := by
      rintro hnil
      obtain ⟨rfl, rfl⟩ := List.append_eq_nil_iff.mp hnil
      obtain rfl := List.mem_singleton.mp hc
      exact absurd hd (by decide)
    exact ⟨⟨whole, some fraction, hw.append hf, hne⟩, rfl⟩

/-! ## What is read of a mantissa -/

theorem dropWhile_digits {digits : List Char} (hd : Digits digits) {c : Char}
    (hc : c.isDigit = false) (after : List Char) :
    (digits ++ c :: after).dropWhile Char.isDigit = c :: after := by
  rw [List.dropWhile_append_of_pos hd, List.dropWhile_cons_of_neg (by simp [hc])]

theorem Digits.eq_nil {text : List Char} (h : Digits text) (hn : ∀ c ∈ text, c.isDigit = false) :
    text = [] := by
  rw [List.eq_nil_iff_forall_not_mem]
  intro c hc
  exact Bool.false_ne_true ((hn c hc).symm.trans (h c hc))

namespace Mantissa

theorem read_of_firstMisplaced {text : List Char} {c : Char} (h : FirstMisplaced text c) :
    read text = .error (if c = '.' then .multiplePoints else .unrecognized c) := by
  obtain ⟨before, after, rfl, hb, hc, hpoint⟩ := h
  obtain hw | ⟨whole, fraction, rfl, hw, hf⟩ := hb.cases
  · have hne : c ≠ '.' := fun h => absurd (hw '.' (hpoint h)) (by decide)
    rw [if_neg hne, read, dropWhile_digits hw hc]
    split
    · contradiction
    · simp_all
    · simp_all
  · rw [List.append_assoc, List.cons_append, read, dropWhile_digits hw (by decide)]
    simp only [dropWhile_digits hf hc]
    split
    · contradiction
    · simp_all
    · simp_all

theorem read_of_no_digit {text : List Char} (h : InPlace text)
    (hn : ∀ c ∈ text, c.isDigit = false) : read text = .error .noDigits := by
  obtain ht | ⟨whole, fraction, rfl, hw, hf⟩ := h.cases
  · rw [ht.eq_nil hn]
    rfl
  · rw [hw.eq_nil fun c hc => hn c (by simp [hc]), hf.eq_nil fun c hc => hn c (by simp [hc])]
    rfl

end Mantissa

/-! ## Texts as they are looked at -/

/-- A marker and what is behind it: a sign that may be left out, and any rest. -/
structure Tail where
  marker : Char
  sign : Sign
  rest : List Char
  marker_spec : isMarker marker = true
  sign_spec : sign = .absent → ¬ StartsSigned rest

namespace Tail

/-- What follows the marker. -/
def after (t : Tail) : List Char := t.sign.chars ++ t.rest

def chars (t : Tail) : List Char := t.marker :: t.after

/-- The exponent, where the rest is one. -/
def value (t : Tail) : Int := signed t.sign.isMinus (ofNumeral t.rest)

theorem exists_tail {marker : Char} (hm : isMarker marker = true) (text : List Char) :
    ∃ t : Tail, t.chars = marker :: text := by
  obtain ⟨sign, ht, -, hs⟩ := exists_sign text
  exact ⟨⟨marker, sign, _, hm, hs⟩, congrArg (marker :: ·) ht.symm⟩

theorem splitSign_after (t : Tail) : splitSign t.after = (t.sign.isMinus, t.rest) :=
  splitSign_chars_append t.sign_spec

/-- The exponent that a rest of digits is. -/
def exponent (t : Tail) (hd : Digits t.rest) (hne : t.rest ≠ []) : Exponent :=
  ⟨t.marker, t.sign, t.rest, t.marker_spec, hd, hne⟩

theorem readExponent_of_nil {t : Tail} (h : t.rest = []) :
    readExponent t.after = .error .missingExponent := by
  rw [readExponent, splitSign_after, h]
  rfl

theorem readExponent_of_malformed {t : Tail} (hne : t.rest ≠ [])
    (h : ¬ (Digits t.rest ∧ ScaleFits t.value)) :
    readExponent t.after = .error .malformedExponent := by
  by_cases hd : Digits t.rest
  · exact (readExponent_tail (t.exponent hd hne)).trans (if_neg fun hs => h ⟨hd, hs⟩)
  · rw [readExponent, splitSign_after]
    simp only [List.isEmpty_eq_false_iff.mpr hne, Bool.false_eq_true, if_false]
    exact if_neg (List.all_eq_true.not.mpr hd)

end Tail

/-- A text taken apart as far as every text can be, whether it is a number or not. -/
structure Outline where
  sign : Sign
  mantissa : List Char
  tail : Option Tail
  mantissa_spec : ∀ c ∈ mantissa, isMarker c = false
  sign_spec : sign = .absent → ¬ StartsSigned (mantissa ++ tail.elim [] Tail.chars)

namespace Outline

/-- What follows the sign. -/
def body (o : Outline) : List Char := o.mantissa ++ o.tail.elim [] Tail.chars

def chars (o : Outline) : List Char := o.sign.chars ++ o.body

theorem exists_outline (text : List Char) : ∃ o : Outline, o.chars = text := by
  obtain ⟨sign, ht, -, hs⟩ := exists_sign text
  generalize (splitSign text).2 = body at ht hs
  cases splitMarker_cases body with
  | inl hn =>
    rw [← List.append_nil body] at ht hs
    exact ⟨⟨sign, body, none, hn, hs⟩, ht.symm⟩
  | inr hn =>
    obtain ⟨before, marker, after, rfl, hn, hm⟩ := hn
    obtain ⟨t, htail⟩ := Tail.exists_tail hm after
    rw [← htail] at ht hs
    exact ⟨⟨sign, before, some t, hn, hs⟩, ht.symm⟩

theorem splitSign_chars (o : Outline) : splitSign o.chars = (o.sign.isMinus, o.body) :=
  splitSign_chars_append o.sign_spec

theorem splitMarker_body (o : Outline) :
    splitMarker o.body = (o.mantissa, o.tail.map Tail.after) := by
  rw [body]
  cases o.tail with
  | none =>
    rw [Option.elim_none, List.append_nil]
    exact splitMarker_of_forall o.mantissa_spec
  | some t => exact splitMarker_append o.mantissa_spec t.marker_spec t.after

/-- Why a text is refused. Each reason asks that everything that is looked at before it be in order,
so that no two of them apply to one text. -/
inductive Fault (o : Outline) : ParseError → Prop where
  | multiplePoints (h : FirstMisplaced o.mantissa '.') : Fault o .multiplePoints
  | unrecognized {c : Char} (h : FirstMisplaced o.mantissa c) (hc : c ≠ '.') :
    Fault o (.unrecognized c)
  | noDigits (hm : InPlace o.mantissa) (hd : ∀ c ∈ o.mantissa, c.isDigit = false) :
    Fault o .noDigits
  | missingExponent (hm : InPlace o.mantissa) (hd : ∃ c ∈ o.mantissa, c.isDigit = true) {t : Tail}
    (ht : o.tail = some t) (hr : t.rest = []) : Fault o .missingExponent
  | malformedExponent (hm : InPlace o.mantissa) (hd : ∃ c ∈ o.mantissa, c.isDigit = true) {t : Tail}
    (ht : o.tail = some t) (hr : t.rest ≠ []) (hx : ¬ (Digits t.rest ∧ ScaleFits t.value)) :
    Fault o .malformedExponent
  /-- All parts are in order, but not what they come to. -/
  | scaleTooLarge {s : Spelling} (hs : s.chars = o.chars) (hp : ScaleFits s.power)
    (hl : 2147483647 < s.parts.2) : Fault o .malformedExponent

/-! ## Faults and refusals -/

theorem ofChars_of_mantissa {o : Outline} {e : ParseError}
    (h : Mantissa.read o.mantissa = .error e) : Decimal.ofChars o.chars = .error e := by
  simp only [Decimal.ofChars, splitSign_chars, splitMarker_body, h, error_bind]

theorem ofChars_of_tail {o : Outline} {e : ParseError} {t : Tail} (hm : InPlace o.mantissa)
    (hd : ∃ c ∈ o.mantissa, c.isDigit = true) (ht : o.tail = some t)
    (h : readExponent t.after = .error e) : Decimal.ofChars o.chars = .error e := by
  obtain ⟨f, hf⟩ := hm.exists_figures hd
  simp only [Decimal.ofChars, splitSign_chars, splitMarker_body, ← hf, Mantissa.read_chars, ok_bind,
    ht, Option.map_some, Option.mapM_some, h]
  rfl

theorem Fault.ofChars_eq {o : Outline} {e : ParseError} (h : o.Fault e) :
    Decimal.ofChars o.chars = .error e := by
  cases h with
  | multiplePoints h => exact ofChars_of_mantissa (Mantissa.read_of_firstMisplaced h)
  | unrecognized h hc =>
    have hread := Mantissa.read_of_firstMisplaced h
    rw [if_neg hc] at hread
    exact ofChars_of_mantissa hread
  | noDigits hm hd => exact ofChars_of_mantissa (Mantissa.read_of_no_digit hm hd)
  | missingExponent hm hd ht hr => exact ofChars_of_tail hm hd ht (Tail.readExponent_of_nil hr)
  | malformedExponent hm hd ht hr hx =>
    exact ofChars_of_tail hm hd ht (Tail.readExponent_of_malformed hr hx)
  | scaleTooLarge hs hp hl =>
    have hscale : ¬ ScaleFits _ := fun h => absurd h.2 (Int.not_le.mpr hl)
    rw [← hs, Spelling.ofChars_chars, Spelling.decimal?, if_pos hp, Decimal.ofParts?,
      dif_neg hscale]
    rfl

/-! ## Texts without a fault -/

section Spelled

variable {o : Outline} {f : Figures} (hf : f.chars = o.mantissa)

include hf

theorem chars_spelling_of_none (ht : o.tail = none) :
    Spelling.chars ⟨o.sign, f, none⟩ = o.chars := by
  rw [Spelling.chars, Spelling.body_of_none rfl, hf, chars, body, ht, Option.elim_none,
    List.append_nil]

theorem chars_spelling_of_some {t : Tail} (ht : o.tail = some t) (hd : Digits t.rest)
    (hne : t.rest ≠ []) :
    Spelling.chars ⟨o.sign, f, some (t.exponent hd hne)⟩ = o.chars := by
  rw [Spelling.chars, Spelling.body_of_some rfl, hf, chars, body, ht]
  rfl

end Spelled

/-- Of what is spelled with an exponent in range only the scale can be wrong. -/
theorem fault_or_inRange {o : Outline} {s : Spelling} (hs : s.chars = o.chars)
    (hp : ScaleFits s.power) :
    (∃ e, o.Fault e) ∨ ∃ s : Spelling, s.chars = o.chars ∧ s.InRange := by
  by_cases hl : 2147483647 < s.parts.2
  · exact .inl ⟨_, .scaleTooLarge hs hp hl⟩
  · have h0 := Decimal.parts_scale_nonneg s
    exact .inr ⟨s, hs, hp, by omega, by omega⟩

theorem fault_or_spelling_of_inPlace {o : Outline} (hm : InPlace o.mantissa)
    (hd : ∃ c ∈ o.mantissa, c.isDigit = true) :
    (∃ e, o.Fault e) ∨ ∃ s : Spelling, s.chars = o.chars ∧ s.InRange := by
  obtain ⟨f, hf⟩ := hm.exists_figures hd
  cases ht : o.tail with
  | none => exact fault_or_inRange (chars_spelling_of_none hf ht) (by decide : ScaleFits 0)
  | some t =>
    by_cases hr : t.rest = []
    · exact .inl ⟨_, .missingExponent hm hd ht hr⟩
    by_cases hx : Digits t.rest ∧ ScaleFits t.value
    · exact fault_or_inRange (chars_spelling_of_some hf ht hx.1 hr) hx.2
    · exact .inl ⟨_, .malformedExponent hm hd ht hr hx⟩

/-- Every text has a fault or spells a decimal. -/
theorem fault_or_spelling (o : Outline) :
    (∃ e, o.Fault e) ∨ ∃ s : Spelling, s.chars = o.chars ∧ s.InRange := by
  obtain hm | ⟨c, hc⟩ := inPlace_or_firstMisplaced o.mantissa
  · by_cases hd : ∃ c ∈ o.mantissa, c.isDigit = true
    · exact fault_or_spelling_of_inPlace hm hd
    · refine .inl ⟨_, .noDigits hm fun c hc => ?_⟩
      exact Bool.eq_false_iff.mpr fun h => hd ⟨c, hc, h⟩
  · by_cases hp : c = '.'
    · exact .inl ⟨_, .multiplePoints (hp ▸ hc)⟩
    · exact .inl ⟨_, .unrecognized hc hp⟩

end Outline

end ExactDecimal.Text

namespace ExactDecimal.Decimal

open Text

/-- Every text has an outline, and whatever its characters are, it is refused with an error if and
only if that error is the first fault of the outline. -/
theorem ofText_refuses_first_fault (text : String) :
    (∃ o : Outline, o.chars = text.toList) ∧
    ∀ o : Outline, o.chars = text.toList → ∀ e, ofText text = .error e ↔ o.Fault e := by
  refine ⟨Outline.exists_outline _, fun o ho e => ?_⟩
  rw [ofText, ← ho]
  refine ⟨fun h => ?_, Outline.Fault.ofChars_eq⟩
  obtain ⟨e', he'⟩ | ⟨s, hs, hp, hscale⟩ := o.fault_or_spelling
  · obtain rfl : e' = e := Except.error.inj (he'.ofChars_eq.symm.trans h)
    exact he'
  · have hd := ofChars_eq_ok_iff (d := ⟨s.parts.1, s.parts.2, hscale⟩).mpr ⟨hp, rfl, rfl⟩
    rw [hs] at hd
    cases hd.symm.trans h

/-- A mantissa with a letter in front of its second point, and an exponent that is none. -/
theorem ofText_refuses_first_fault_of_three :
    ∃ o : Outline, o.chars = "-1.é.2Ex".toList ∧ ofText "-1.é.2Ex" = .error (.unrecognized 'é') ∧
      o.Fault (.unrecognized 'é') := by
  have hread : ofText "-1.é.2Ex" = .error (.unrecognized 'é') := by decide
  obtain ⟨o, ho⟩ := (ofText_refuses_first_fault "-1.é.2Ex").1
  exact ⟨o, ho, hread, ((ofText_refuses_first_fault _).2 o ho _).mp hread⟩

/-- An exponent in range can lead to a scale that is not; zero has no scale to go wrong. -/
example : ofText "5E-2147483648" = .error .malformedExponent ∧
    ofText "0E-2147483648" = .ok zero := by decide

end ExactDecimal.Decimal
