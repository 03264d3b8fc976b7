import ExactDecimal.Literal
import ExactDecimal.Proofs.Reading
/-!
Literals in program text mean what the same text means when it is read at run time. The two readers
share neither the scan of the mantissa nor the reader of exponents; both are compared with the
spellings of the text. The one licence that a literal has over a text, a second sign in front of
the exponent, is one that no tokenizer lets through.
-/
namespace ExactDecimal

open Text

/-- The sign as a token of its own. -/
def Text.Sign.tokens : Sign → List Token
  | absent => []
  | plus => [.punct '+']
  | minus => [.punct '-']

/-- What a tokenizer promises of the text of a literal: no sign in front, and at most one sign
behind the first marker. -/
structure LiteralText (text : List Char) : Prop where
  unsigned : ¬ StartsSigned text
  single_sign : ∀ before marker after, text = before ++ marker :: after →
    (∀ c ∈ before, isMarker c = false) → isMarker marker = true →
    StartsSigned after → ¬ StartsSigned after.tail

namespace LiteralParts

/-- Tokens inside so many invisible groups. -/
def wrap : Nat → List Token → List Token
  | 0, tokens => tokens
  | depth + 1, tokens => [.group false (wrap depth tokens)]

theorem unwrap_of_not_group {tokens : List Token}
    (h : ∀ inner rest, tokens ≠ .group false inner :: rest) : unwrap tokens = tokens :=
  unwrap.eq_2 tokens h

theorem unwrap_wrap {tokens : List Token}
    (h : ∀ inner rest, tokens ≠ .group false inner :: rest) (depth : Nat) :
    unwrap (wrap depth tokens) = tokens := by
  induction depth with
  | zero => exact unwrap_of_not_group h
  | succ depth ih => rw [wrap, unwrap, ih]

theorem spell_of_not_minus {text : List Char} (h : text.head? ≠ some '-') :
    spell (.literal text) = [.literal text] := by
  rw [spell.eq_def]
  split
  · rename_i he
    cases he
    exact absurd rfl h
  · rfl

/-- Groups and the sign are taken off, and the literal is left to its reader. -/
theorem ofTokens_literal (sign : Sign) {text : List Char} (h : text.head? ≠ some '-')
    (depth : Nat) :
    ofTokens (wrap depth (sign.tokens ++ [.literal text])) =
      readUnsigned sign.isMinus (text.filter (· != '_')) := by
  have hw : unwrap (wrap depth (sign.tokens ++ [.literal text])) =
      sign.tokens ++ [.literal text] := by
    apply unwrap_wrap
    intro inner rest he
    cases sign <;> cases he
  have hs : (sign.tokens ++ [Token.literal text]).flatMap spell = sign.tokens ++ [.literal text] := by
    have hl := spell_of_not_minus h
    cases sign with
    | absent => simpa [Sign.tokens] using hl
    | plus => simpa [Sign.tokens, spell] using hl
    | minus => simpa [Sign.tokens, spell] using hl
  rw [ofTokens, hw, hs]
  cases sign with
  | absent => rfl
  | plus => rfl
  | minus => rfl

/-! ## Exponents -/

theorem dropPlus_of_not_startsSigned {text : List Char} (h : ¬ StartsSigned text) :
    dropPlus text = text := by
  rw [dropPlus.eq_def]
  split
  · exact absurd (.inl rfl) h
  · rfl

theorem splitSign_dropPlus_tail (e : Exponent) :
    splitSign (dropPlus e.tail) = (e.sign.isMinus, e.digits) := by
  have hn := not_startsSigned_digits e.digits_spec e.digits_ne_nil
  rw [Exponent.tail]
  cases e.sign with
  | absent =>
    change splitSign (dropPlus e.digits) = _
    rw [dropPlus_of_not_startsSigned hn, splitSign_of_not_startsSigned hn]
    rfl
  | plus => exact splitSign_of_not_startsSigned hn
  | minus => rfl

/-- With at most one sign in front, dropping a plus sign leaves a text that is split as before. -/
theorem exists_sign_dropPlus {text : List Char}
    (h : StartsSigned text → ¬ StartsSigned text.tail) :
    ∃ sign : Sign, text = sign.chars ++ (splitSign (dropPlus text)).2 := by
  rw [dropPlus.eq_def]
  split
  · rename_i rest
    have hr : ¬ StartsSigned rest := h (.inl rfl)
    refine ⟨.plus, ?_⟩
    rw [splitSign_of_not_startsSigned hr]
    rfl
  · obtain ⟨sign, ht, -⟩ := exists_sign text
    exact ⟨sign, ht⟩

/-- On an exponent that a text may have, dropping a plus sign first makes no difference. -/
theorem readExponent_tail (e : Exponent) :
    readExponent e.tail =
      if ScaleFits e.value then .ok e.value else .error .malformedExponent := by
  have hs := splitSign_dropPlus_tail e
  have hd : e.digits.all Char.isDigit = true := List.all_eq_true.mpr e.digits_spec
  have hne : e.digits.isEmpty = false := List.isEmpty_eq_false_iff.mpr e.digits_ne_nil
  have ht : (dropPlus e.tail).isEmpty = false := by
    cases hz : dropPlus e.tail with
    | nil =>
      rw [hz] at hs
      exact absurd (congrArg Prod.snd hs).symm e.digits_ne_nil
    | cons c rest => rfl
  simp only [readExponent, hs, ht, hd, hne, Bool.not_true, Bool.or_false, Bool.false_eq_true,
    if_false]
  rfl

theorem exists_exponent_of_read {text : List Char} {k : Int} (h : readExponent text = .ok k)
    (hsingle : StartsSigned text → ¬ StartsSigned text.tail) {marker : Char}
    (hm : isMarker marker = true) : ∃ e : Exponent, e.chars = marker :: text := by
  obtain ⟨sign, ht⟩ := exists_sign_dropPlus hsingle
  simp only [readExponent] at h
  split at h
  · exact nomatch h
  · split at h
    · exact nomatch h
    · rename_i hd
      rw [Bool.not_eq_true, Bool.or_eq_false_iff, Bool.not_eq_false', List.isEmpty_eq_false_iff,
        List.all_eq_true] at hd
      exact ⟨⟨marker, sign, _, hm, hd.2, hd.1⟩, congrArg (marker :: ·) ht.symm⟩

/-! ## The mantissa -/

theorem splitPoint_chars (f : Figures) :
    f.chars.takeWhile (· != '.') = f.whole ∧
      (f.chars.dropWhile (· != '.')).tail = f.fraction.getD [] := by
  have hw : ∀ c ∈ f.whole, (c != '.') = true := by
    intro c hc
    rw [bne_iff_ne]
    rintro rfl
    exact absurd (f.digits_spec.left _ hc) (by decide)
  rw [Figures.chars, List.takeWhile_append_of_pos hw, List.dropWhile_append_of_pos hw]
  cases f.fraction with
  | none => simp
  | some fraction => simp

/-- Only the first point splits a text, so any text has at most two sides. -/
theorem exists_fraction (text : List Char) :
    ∃ fraction : Option (List Char),
      text = text.takeWhile (· != '.') ++ fraction.elim [] ('.' :: ·) ∧
      (text.dropWhile (· != '.')).tail = fraction.getD [] := by
  induction text with
  | nil => exact ⟨none, rfl, rfl⟩
  | cons c text ih =>
    by_cases hc : c = '.'
    · exact ⟨some text, by simp [hc], by simp [hc]⟩
    · obtain ⟨fraction, ht, hf⟩ := ih
      refine ⟨fraction, ?_, by simpa [hc] using hf⟩
      simpa [hc] using ht

theorem exists_figures {text : List Char}
    (hd : Digits (text.takeWhile (· != '.') ++ (text.dropWhile (· != '.')).tail))
    (hne : text.takeWhile (· != '.') ++ (text.dropWhile (· != '.')).tail ≠ []) :
    ∃ f : Figures, f.chars = text := by
  obtain ⟨fraction, ht, hf⟩ := exists_fraction text
  rw [hf] at hd hne
  exact ⟨⟨_, fraction, hd, hne⟩, ht.symm⟩

/-! ## Magnitude and scale -/

/-- A literal is scaled like a text; the power of ten that is multiplied out is never too long, for
an exponent in range is not. -/
theorem applyPower_eq (magnitude places : Nat) {exponent : Option Int}
    (h : ∀ e, exponent = some e → ScaleFits e) :
    applyPower magnitude places exponent = .ok (applyExponent magnitude places exponent) := by
  cases exponent with
  | none => rfl
  | some e =>
    have hfits : ScaleFits e := h e rfl
    simp only [applyPower, applyExponent]
    by_cases hz : magnitude = 0
    · rw [if_pos hz, if_pos hz, hz]
    · rw [if_neg hz, if_neg hz]
      by_cases hlt : (places : Int) < e
      · rw [if_pos hlt, if_pos (show 0 < e - places by omega), if_pos (by omega)]
        rfl
      · rw [if_neg hlt, if_neg (show ¬ 0 < e - places by omega), Int.neg_sub]

/-! ## The literal without its sign -/

theorem toDecimal_of_assemble {negative : Bool} {parts : Nat × Int} {p : LiteralParts}
    (h : assemble negative parts = .ok p) :
    p.toDecimal.magnitude = signed negative parts.1 ∧ p.toDecimal.scale = parts.2 := by
  rw [assemble] at h
  split at h
  · cases h
    refine ⟨?_, rfl⟩
    change signed (negative && parts.1 != 0) (ofWords (toWords parts.1)) = _
    rw [ofWords_toWords]
    by_cases hz : parts.1 = 0
    · rw [hz, signed_zero, signed_zero]
    · rw [bne_iff_ne.mpr hz, Bool.and_true]
  · exact nomatch h

theorem exists_assemble {negative : Bool} {parts : Nat × Int} (h : ScaleFits parts.2) :
    ∃ p, assemble negative parts = .ok p := by
  rw [assemble, dif_pos h]
  exact ⟨_, rfl⟩

/-- The reader of literals on a spelled text. -/
theorem readUnsigned_body (negative : Bool) (s : Spelling) :
    readUnsigned negative s.body =
      if ScaleFits s.power then
        assemble negative (applyExponent s.figures.number s.places
          (s.exponent.map Exponent.value))
      else .error .malformedExponent := by
  obtain ⟨hw, hf⟩ := splitPoint_chars s.figures
  have hne := List.isEmpty_eq_false_iff.mpr s.figures.digits_ne_nil
  have hd : (s.figures.whole ++ s.figures.fraction.getD []).all Char.isDigit = true :=
    List.all_eq_true.mpr s.figures.digits_spec
  simp only [readUnsigned, s.splitMarker_body, hw, hf, hne, hd, Bool.false_eq_true, if_false,
    Bool.not_true]
  cases he : s.exponent with
  | none =>
    rw [s.power_of_none he]
    rfl
  | some e =>
    rw [s.power_of_some he]
    simp only [Option.map_some, Option.mapM_some, readExponent_tail]
    by_cases hp : ScaleFits e.value
    · have hscaled : applyPower s.figures.number s.places (some e.value) =
          .ok (applyExponent s.figures.number s.places (some e.value)) := by
        apply applyPower_eq
        rintro _ ⟨⟩
        exact hp
      rw [if_pos hp, if_pos hp]
      exact congrArg (· >>= assemble negative) hscaled
    · rw [if_neg hp, if_neg hp]
      rfl

/-- Backward: a literal that is read is spelled, behind any sign. -/
theorem exists_spelling_of_readUnsigned {negative : Bool} {text : List Char} {p : LiteralParts}
    (ht : LiteralText text) (h : readUnsigned negative text = .ok p) (sign : Sign) :
    ∃ s : Spelling, s.chars = sign.chars ++ text := by
  simp only [readUnsigned] at h
  split at h
  · exact nomatch h
  · rename_i hne
    rw [Bool.not_eq_true, List.isEmpty_eq_false_iff] at hne
    split at h
    · exact nomatch h
    · rename_i hd
      rw [Bool.not_eq_true, Bool.not_eq_false', List.all_eq_true] at hd
      obtain ⟨f, hf⟩ := exists_figures hd hne
      obtain ⟨exponent, he, -⟩ := bind_eq_ok h
      apply exists_spelling sign hf he
      intro before marker after k hb hn hmarker hk
      exact exists_exponent_of_read hk (ht.single_sign before marker after hb hn hmarker) hmarker

/-- On a spelled text the two readers succeed together, with the same decimal. -/
theorem readUnsigned_agrees (s : Spelling) :
    ((∃ p, readUnsigned s.sign.isMinus s.body = .ok p) ↔ ∃ d, Decimal.ofChars s.chars = .ok d) ∧
    ∀ p, readUnsigned s.sign.isMinus s.body = .ok p → Decimal.ofChars s.chars = .ok p.toDecimal := by
  have hparts := s.parts_eq_applyExponent
  have agrees (p : LiteralParts) (h : readUnsigned s.sign.isMinus s.body = .ok p) :
      Decimal.ofChars s.chars = .ok p.toDecimal := by
    rw [readUnsigned_body] at h
    split at h
    · rename_i hp
      obtain ⟨hm, hs⟩ := toDecimal_of_assemble h
      rw [Decimal.ofChars_eq_ok_iff, hparts]
      exact ⟨hp, hm, hs⟩
    · exact nomatch h
  refine ⟨⟨?_, ?_⟩, agrees⟩
  · rintro ⟨p, h⟩
    exact ⟨p.toDecimal, agrees p h⟩
  · rintro ⟨d, h⟩
    obtain ⟨hp, -, hs⟩ := Decimal.ofChars_eq_ok_iff.mp h
    rw [readUnsigned_body, if_pos hp]
    have hfits := d.scale_fits
    rw [hs, hparts] at hfits
    exact exists_assemble hfits

/-- A literal in program text, behind an optional sign and in any depth of invisible groups, is
expanded exactly if the same text can be read, and then to the parts of the decimal that is read. -/
theorem ofTokens_agrees_with_ofText (sign : Sign) (text : List Char) (depth : Nat)
    (h : LiteralText (text.filter (· != '_'))) :
    ((∃ p, ofTokens (wrap depth (sign.tokens ++ [.literal text])) = .ok p) ↔
      ∃ d, Decimal.ofText (String.ofList (sign.chars ++ text.filter (· != '_'))) = .ok d) ∧
    ∀ p, ofTokens (wrap depth (sign.tokens ++ [.literal text])) = .ok p →
      Decimal.ofText (String.ofList (sign.chars ++ text.filter (· != '_'))) = .ok p.toDecimal := by
  have hminus : text.head? ≠ some '-' := by
    intro hm
    cases text with
    | nil => exact nomatch hm
    | cons c rest =>
      cases hm
      exact h.unsigned (.inr rfl)
  rw [ofTokens_literal sign hminus, Decimal.ofText, String.toList_ofList]
  generalize text.filter (· != '_') = literal at h
  have hsplit := splitSign_append sign h.unsigned
  by_cases hs : ∃ s : Spelling, s.chars = sign.chars ++ literal
  · obtain ⟨s, hs⟩ := hs
    have he := s.splitSign_chars
    rw [hs, hsplit] at he
    obtain ⟨hsign, hbody⟩ := Prod.mk.inj he
    have ha := readUnsigned_agrees s
    rwa [hs, ← hsign, ← hbody] at ha
  · -- neither reader accepts a text that has no spelling
    have hp (p : LiteralParts) : readUnsigned sign.isMinus literal ≠ .ok p :=
      fun h' => hs (exists_spelling_of_readUnsigned h h' sign)
    have hd (d : Decimal) : Decimal.ofChars (sign.chars ++ literal) ≠ .ok d :=
      fun h' => hs (Spelling.exists_spelling_of_ofChars h')
    refine ⟨⟨?_, ?_⟩, fun p h' => absurd h' (hp p)⟩
    · rintro ⟨p, h'⟩
      exact absurd h' (hp p)
    · rintro ⟨d, h'⟩
      exact absurd h' (hd d)

/-- A literal with underscores, with a point and with a signed exponent. -/
def groupedLiteral : List Char :=
  ['1', '_', '0', '.', '5', 'e', '-', '0', '_', '0', '0', '3']

theorem literalText_groupedLiteral : LiteralText (groupedLiteral.filter (· != '_')) where
  unsigned := by decide
  single_sign := by
    intro before marker after ht hb hm _
    have hs := splitMarker_append hb hm after
    rw [← ht] at hs
    cases hs
    decide

theorem ofTokens_agrees_on_groupedLiteral :
    LiteralText (groupedLiteral.filter (· != '_')) ∧
    ∃ p, ofTokens (wrap 2 [.punct '-', .literal groupedLiteral]) = .ok p ∧
      Decimal.ofText "-10.5e-0003" = .ok p.toDecimal := by
  have h := ofTokens_agrees_with_ofText .minus groupedLiteral 2 literalText_groupedLiteral
  obtain ⟨p, hp⟩ := h.1.mpr ⟨⟨-105, 4, by decide⟩, rfl⟩
  exact ⟨literalText_groupedLiteral, p, hp, h.2 p hp⟩

end LiteralParts

end ExactDecimal
