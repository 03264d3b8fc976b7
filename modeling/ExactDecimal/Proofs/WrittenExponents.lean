import ExactDecimal.Proofs.PointMoves
import ExactDecimal.Proofs.Reading
/-!
A written exponent moves the point. A text without one is read at the scale of its places; the same
text with an exponent behind it is read as what it spells once the point has been moved to the right
by the exponent, and where the scale of that is out of range neither the text nor the move has a
result. Only zero is read apart: with an exponent it has scale zero, whatever its places.
-/
namespace ExactDecimal

namespace Text.Spelling

/-- The same digits with an exponent behind them. -/
def withExponent (s : Spelling) (e : Exponent) : Spelling := { s with exponent := some e }

theorem chars_withExponent {s : Spelling} (h : s.exponent = none) (e : Exponent) :
    (s.withExponent e).chars = s.chars ++ e.chars := by
  rw [chars, chars, body_of_none h, List.append_assoc]
  rfl

theorem exponent_eq_none {s : Spelling} (h : ∀ c ∈ s.chars, isMarker c = false) :
    s.exponent = none := by
  cases he : s.exponent with
  | none => rfl
  | some e =>
    have hc : e.marker ∈ s.chars := by simp [chars, body_of_some he]
    exact absurd (h _ hc) (by simp [e.marker_spec])

theorem parts_withExponent_of_lt {s : Spelling} {e : Exponent} (hz : s.coefficient ≠ 0)
    (h : s.places < e.value) :
    (s.withExponent e).parts = (s.coefficient * pow10 (e.value - s.places).toNat, 0) :=
  (if_neg hz).trans (if_pos h)

theorem parts_withExponent_of_le {s : Spelling} {e : Exponent} (hz : s.coefficient ≠ 0)
    (h : e.value ≤ s.places) :
    (s.withExponent e).parts = (s.coefficient, s.places - e.value) :=
  (if_neg hz).trans (if_neg h.not_gt)

end Text.Spelling

namespace Decimal

open Text

/-- What the digits of a text are read as without an exponent. -/
theorem exists_spelling_of_unmarked {text : String} {d : Decimal} (h : ofText text = .ok d)
    (hm : ∀ c ∈ text.toList, isMarker c = false) :
    ∃ s : Spelling, s.chars = text.toList ∧ s.exponent = none ∧ d.magnitude = s.coefficient ∧
      d.scale = s.places := by
  obtain ⟨s, hs⟩ := Spelling.exists_spelling_of_ofChars h
  have hn := Spelling.exponent_eq_none (hs ▸ hm)
  rw [ofText, ← hs] at h
  obtain ⟨-, hmag, hscale⟩ := ofChars_eq_ok_iff.mp h
  rw [Spelling.parts, hn] at hmag hscale
  exact ⟨s, hs, hn, hmag, hscale⟩

section Exponents

variable {text : String} {d : Decimal} (h : ofText text = .ok d)
  (hm : ∀ c ∈ text.toList, isMarker c = false) {e : Exponent} (he : ScaleFits e.value)

include h hm he

/-- The text with the exponent behind it is spelled by the same digits. -/
theorem ofText_append_exponent : ∃ s : Spelling, d.magnitude = s.coefficient ∧ d.scale = s.places ∧
    ofText (text ++ String.ofList e.chars) =
      (ofParts? (s.withExponent e).parts.1 (s.withExponent e).parts.2).elim
        (.error .malformedExponent) .ok := by
  obtain ⟨s, hs, hn, hmag, hscale⟩ := exists_spelling_of_unmarked h hm
  refine ⟨s, hmag, hscale, ?_⟩
  have hchars : (text ++ String.ofList e.chars).toList = (s.withExponent e).chars := by
    rw [String.toList_append, String.toList_ofList, Spelling.chars_withExponent hn, hs]
  have hpower : (s.withExponent e).power = e.value := rfl
  rw [ofText, hchars, Spelling.ofChars_chars, Spelling.decimal?, hpower, if_pos he]

theorem ofText_append_exponent_of_zero (hz : d.magnitude = 0) :
    ofText (text ++ String.ofList e.chars) = .ok zero := by
  obtain ⟨s, hmag, -, hread⟩ := ofText_append_exponent h hm he
  have hparts : (s.withExponent e).parts = (0, 0) := if_pos (hmag.symm.trans hz)
  rw [hread, hparts]
  rfl

/-- Text and move choose the same one of two scales. -/
theorem ofText_append_exponent_eq_move (hz : d.magnitude ≠ 0) :
    ofText (text ++ String.ofList e.chars) =
      (d.movePointRight e.value).mapError fun _ => .malformedExponent := by
  obtain ⟨s, hmag, hscale, hread⟩ := ofText_append_exponent h hm he
  have hc : s.coefficient ≠ 0 := hmag ▸ hz
  rw [hread, movePointRight]
  obtain hlt | hle := Int.lt_or_le s.places e.value
  · have hs : d.scale < e.value := by omega
    have hk : e.value - d.scale < 4294967296 := by omega
    rw [Spelling.parts_withExponent_of_lt hc hlt, shiftPoint_of_lt_of_fits (by omega) hs hk, hmag,
      hscale]
    rfl
  · rw [Spelling.parts_withExponent_of_le hc hle, shiftPoint_of_le (.inr (by omega)), hmag, hscale,
      ofParts]
    cases ofParts? s.coefficient (s.places - e.value) with
    | none => rfl
    | some r => rfl

/-- A text of a number other than zero, which has no exponent, and any exponent that is a possible
scale, however it is spelled: the text with the exponent behind it and the move of the point by the
exponent have one result between them, or both have none. -/
theorem exponent_moves_point :
    (d.magnitude ≠ 0 →
      (∃ r, ofText (text ++ String.ofList e.chars) = .ok r ∧ d.movePointRight e.value = .ok r) ∨
      (ofText (text ++ String.ofList e.chars) = .error .malformedExponent ∧
        d.movePointRight e.value = .error .scaleOverflow)) ∧
    (d.magnitude = 0 → ofText (text ++ String.ofList e.chars) = .ok zero) := by
  refine ⟨?_, ofText_append_exponent_of_zero h hm he⟩
  intro hz
  rw [ofText_append_exponent_eq_move h hm he hz]
  cases hmove : d.movePointRight e.value with
  | ok r => exact .inl ⟨r, rfl, rfl⟩
  | error cause =>
    obtain rfl : cause = .scaleOverflow := eq_scaleOverflow_of_shiftPoint hmove
    exact .inr ⟨rfl, rfl⟩

end Exponents

/-- `e+003` takes `-0.50` to a whole number, and `E-2147483646` takes it out of range. -/
theorem exponent_moves_point_of_half :
    (∃ r, ofText "-00.50e+003" = .ok r ∧ movePointRight ⟨-50, 2, by decide⟩ 3 = .ok r) ∧
    ofText "-00.50E-2147483646" = .error .malformedExponent ∧
    movePointRight ⟨-50, 2, by decide⟩ (-2147483646) = .error .scaleOverflow := by
  have h : ofText "-00.50" = .ok ⟨-50, 2, by decide⟩ := by decide
  have hm : ∀ c ∈ "-00.50".toList, isMarker c = false := by simp [isMarker]
  let up : Exponent := ⟨'e', .plus, "003".toList, by decide, by decide, by decide⟩
  let down : Exponent := ⟨'E', .minus, "2147483646".toList, by decide, by decide, by decide⟩
  have hup := (exponent_moves_point h hm (by decide : ScaleFits up.value)).1 (by decide)
  have hdown := (exponent_moves_point h hm (by decide : ScaleFits down.value)).1 (by decide)
  have hover : movePointRight ⟨-50, 2, by decide⟩ (-2147483646) = .error .scaleOverflow := by decide
  constructor
  · exact hup.resolve_right fun hnot => absurd hnot.2 (by decide)
  · refine hdown.resolve_left ?_
    rintro ⟨r, -, hmove⟩
    cases hover.symm.trans hmove

end Decimal

end ExactDecimal
