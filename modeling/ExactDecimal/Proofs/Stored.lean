import ExactDecimal.Json
import ExactDecimal.Packed
import ExactDecimal.Proofs.RoundTrip
/-!
Decimals that have been stored come back. Both stored forms carry the text of the decimal, so that
what is left to show is that each of them hands the text over unchanged: JSON as it stands, and the
packed form behind its length. A length is a word of 64 bits, which is as long as a text in memory
can be; longer ones would be written, but their length is refused.
-/
namespace ExactDecimal

/-! ## Lengths -/

namespace Varint

theorem encode_of_lt {n : Nat} (h : n < 128) : encode n = [UInt8.ofNat n] := by
  rw [encode, if_pos h]

theorem encode_of_le {n : Nat} (h : 128 ≤ n) :
    encode n = UInt8.ofNat (n % 128 + 128) :: encode (n / 128) := by
  rw [encode, if_neg (by omega)]

theorem decodeWithin_last {byte : Nat} (h : byte < 128) (left : Nat) (rest : List UInt8) :
    decodeWithin (left + 1) (UInt8.ofNat byte :: rest) =
      if left = 0 ∧ 1 < byte then .error .badVarint else .ok (byte, rest) := by
  have hbyte : (UInt8.ofNat byte).toNat = byte :=
    UInt8.toNat_ofNat_of_lt' (Nat.lt_trans h (by decide))
  rw [decodeWithin, hbyte, if_pos h]

theorem decodeWithin_more {low : Nat} (h : low < 128) (left : Nat) (rest : List UInt8) :
    decodeWithin (left + 1) (UInt8.ofNat (low + 128) :: rest) =
      (decodeWithin left rest).map fun (high, rest) => (low + 128 * high, rest) := by
  have hbyte : (UInt8.ofNat (low + 128)).toNat = low + 128 :=
    UInt8.toNat_ofNat_of_lt' (Nat.add_lt_add_right h 128)
  rw [decodeWithin, hbyte, if_neg (by omega), Nat.add_sub_cancel]

theorem decodeWithin_encode_of_lt (left : Nat) {n : Nat} (h : n < 128) (rest : List UInt8) :
    decodeWithin (left + 1) (encode n ++ rest) =
      if n < 2 * 128 ^ left then .ok (n, rest) else .error .badVarint := by
  rw [encode_of_lt h, List.singleton_append, decodeWithin_last h]
  cases left with
  | zero =>
    by_cases hn : 1 < n
    · rw [if_pos ⟨rfl, hn⟩, if_neg (by omega)]
    · rw [if_neg (fun hc => hn hc.2), if_pos (by omega)]
  | succ left =>
    have hpow : 0 < 128 ^ left := Nat.pow_pos (by decide)
    rw [Nat.pow_succ, if_neg (fun hc => Nat.succ_ne_zero left hc.1), if_pos (by omega)]

/-- Each byte but the last is worth seven bits, and of the last one only one bit may be used. -/
theorem decodeWithin_encode (left n : Nat) (rest : List UInt8) :
    decodeWithin (left + 1) (encode n ++ rest) =
      if n < 2 * 128 ^ left then .ok (n, rest) else .error .badVarint := by
  induction left generalizing n with
  | zero =>
    by_cases h : n < 128
    · exact decodeWithin_encode_of_lt 0 h rest
    · rw [encode_of_le (by omega), List.cons_append, decodeWithin_more (Nat.mod_lt n (by decide)),
        if_neg (by omega)]
      rfl
  | succ left ih =>
    by_cases h : n < 128
    · exact decodeWithin_encode_of_lt (left + 1) h rest
    · have hdiv : n / 128 < 2 * 128 ^ left ↔ n < 2 * 128 ^ (left + 1) := by
        rw [Nat.div_lt_iff_lt_mul (by decide), Nat.pow_succ, Nat.mul_assoc]
      rw [encode_of_le (by omega), List.cons_append, decodeWithin_more (Nat.mod_lt n (by decide)), ih]
      by_cases hn : n < 2 * 128 ^ (left + 1)
      · rw [if_pos (hdiv.mpr hn), if_pos hn]
        exact congrArg (fun m => Except.ok (m, rest)) (Nat.mod_add_div n 128)
      · rw [if_neg (mt hdiv.mp hn), if_neg hn]
        rfl

theorem decode_encode (n : Nat) (rest : List UInt8) :
    decode (encode n ++ rest) = if n < 2 ^ 64 then .ok (n, rest) else .error .badVarint :=
  decodeWithin_encode 9 n rest

end Varint

/-! ## Texts -/

namespace Packed

theorem fromUTF8?_toUTF8 (text : String) : String.fromUTF8? text.toUTF8 = some text := by
  rw [String.fromUTF8?, String.toUTF8_eq_toByteArray, dif_pos text.isValidUTF8]
  rfl

/-- The bytes of a text are found behind its length, and the bytes behind them do not matter. -/
theorem decodeText_encodeText (text : String) (rest : List UInt8) :
    decodeText (encodeText text ++ rest) =
      if text.utf8ByteSize < 2 ^ 64 then .ok text else .error .badVarint := by
  have hlen : text.toUTF8.size = text.toUTF8.data.toList.length := Array.length_toList.symm
  have hsize : text.utf8ByteSize = text.toUTF8.size := rfl
  rw [decodeText, encodeText, List.append_assoc, Varint.decode_encode, hsize]
  by_cases h : text.toUTF8.size < 2 ^ 64
  · rw [if_pos h, if_pos h, ok_bind]
    simp only [hlen, List.length_append]
    rw [if_neg (by omega), List.take_left, Array.toArray_toList, fromUTF8?_toUTF8]
  · rw [if_neg h, if_neg h]
    rfl

end Packed

namespace Decimal

theorem ofPacked_encodeText {text : String} (h : text.utf8ByteSize < 2 ^ 64) (rest : List UInt8) :
    ofPacked (Packed.encodeText text ++ rest) = (ofText text).mapError .badText := by
  rw [ofPacked, Packed.decodeText_encodeText, if_pos h, ok_bind]

theorem ofJson_toJson (d : Decimal) : ofJson d.toJson = .ok d.written := by
  rw [toJson, ofJson_string, ofText_toText_eq]
  rfl

theorem ofPacked_toPacked {d : Decimal} (h : d.toText.utf8ByteSize < 2 ^ 64) (rest : List UInt8) :
    ofPacked (d.toPacked ++ rest) = .ok d.written := by
  rw [toPacked, ofPacked_encodeText h, ofText_toText_eq]
  rfl

/-- A decimal is read back from either form, as it was or, where its scale was negative, as the
same number at scale zero; of a string in either form, the text decides whether it is read and as
what. -/
theorem stored_decimals_are_read_back :
    (∀ d : Decimal,
      (0 ≤ d.scale → ofJson d.toJson = .ok d) ∧
      (d.scale < 0 → ofJson d.toJson = .ok (ofInt (d.magnitude * 10 ^ (-d.scale).toNat))) ∧
      ∀ rest : List UInt8, d.toText.utf8ByteSize < 2 ^ 64 →
        (0 ≤ d.scale → ofPacked (d.toPacked ++ rest) = .ok d) ∧
        (d.scale < 0 → ofPacked (d.toPacked ++ rest) =
          .ok (ofInt (d.magnitude * 10 ^ (-d.scale).toNat)))) ∧
    ∀ (text : String) (e : Decimal),
      (ofJson (.string text) = .ok e ↔ ofText text = .ok e) ∧
      ∀ rest : List UInt8, text.utf8ByteSize < 2 ^ 64 →
        (ofPacked (Packed.encodeText text ++ rest) = .ok e ↔ ofText text = .ok e) := by
  refine ⟨?_, ?_⟩
  · intro d
    refine ⟨?_, ?_, ?_⟩
    · intro hs
      rw [ofJson_toJson, written_of_nonneg hs]
    · intro hs
      rw [ofJson_toJson, written_of_neg hs]
    · intro rest h
      rw [ofPacked_toPacked h]
      refine ⟨?_, ?_⟩
      · intro hs
        rw [written_of_nonneg hs]
      · intro hs
        rw [written_of_neg hs]
  · intro text e
    refine ⟨?_, ?_⟩
    · rw [ofJson_string, mapError_eq_ok_iff]
    · intro rest h
      rw [ofPacked_encodeText h, mapError_eq_ok_iff]

/-- A text whose length takes two bytes, zeros that are not written, and a text with an exponent;
bytes follow each packed form. -/
theorem stored_decimals_are_read_back_with_bytes_behind :
    (toText ⟨-5, 200, by decide⟩).utf8ByteSize < 2 ^ 64 ∧
    ofPacked (toPacked ⟨-5, 200, by decide⟩ ++ [255]) = .ok ⟨-5, 200, by decide⟩ ∧
    ofPacked (toPacked ⟨-12, -3, by decide⟩ ++ [0]) = .ok (ofInt (-12 * 10 ^ 3)) ∧
    ofJson (toJson ⟨-12, -3, by decide⟩) = .ok (ofInt (-12 * 10 ^ 3)) ∧
    (ofPacked (Packed.encodeText "1.50e1" ++ [7]) = .ok ⟨150, 1, by decide⟩ ↔
      ofText "1.50e1" = .ok ⟨150, 1, by decide⟩) := by
  have hsize : (toText ⟨-5, 200, by decide⟩).utf8ByteSize < 2 ^ 64 := by decide +kernel
  have hplaces := (stored_decimals_are_read_back.1 ⟨-5, 200, by decide⟩).2.2 [255] hsize
  have hzeros := stored_decimals_are_read_back.1 ⟨-12, -3, by decide⟩
  exact ⟨hsize, hplaces.1 (by decide), (hzeros.2.2 [0] (by decide +kernel)).2 (by decide),
    hzeros.2.1 (by decide),
    (stored_decimals_are_read_back.2 "1.50e1" ⟨150, 1, by decide⟩).2 [7] (by decide +kernel)⟩

end Decimal

end ExactDecimal
