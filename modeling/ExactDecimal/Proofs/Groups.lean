import ExactDecimal.Proofs.Literals
/-!
What a literal is read from, when there are invisible groups among its tokens. A group in front
stands for the whole list that begins with it: the tokens behind it are not looked at, on any
level. Those are all that is left out; any other token beside a sign and one literal is refused.
-/
namespace ExactDecimal.LiteralParts

open Text

/-- The tokens with every invisible group replaced by its contents, at any depth. -/
def flatten : List Token → List Token
  | [] => []
  | .group false inner :: rest => flatten inner ++ flatten rest
  | token :: rest => token :: flatten rest

/-- The tokens behind an invisible group in front, those of the innermost group first. -/
def behind : List Token → List Token
  | .group false inner :: rest => behind inner ++ rest
  | _ => []

theorem flatten_group (inner rest : List Token) :
    flatten (.group false inner :: rest) = flatten inner ++ flatten rest := by
  rw [flatten]

theorem flatten_cons {token : Token} (h : ∀ inner, token ≠ .group false inner)
    (rest : List Token) : flatten (token :: rest) = token :: flatten rest := by
  rw [flatten]
  exact h

theorem flatten_append (a b : List Token) : flatten (a ++ b) = flatten a ++ flatten b := by
  fun_induction flatten a with
  | case1 => rfl
  | case2 inner rest _ ih => rw [List.cons_append, flatten_group, ih, List.append_assoc]
  | case3 token rest hne ih => rw [List.cons_append, flatten_cons hne, ih, List.cons_append]

theorem flatten_sign_literal (sign : Sign) (text : List Char) :
    flatten (sign.tokens ++ [.literal text]) = sign.tokens ++ [.literal text] := by
  cases sign with
  | absent => simp [Sign.tokens, flatten]
  | plus => simp [Sign.tokens, flatten]
  | minus => simp [Sign.tokens, flatten]

/-- Nothing is lost but what stands behind the groups in front. -/
theorem flatten_eq (tokens : List Token) :
    flatten tokens = flatten (unwrap tokens) ++ flatten (behind tokens) := by
  fun_induction unwrap tokens with
  | case1 inner rest ih => rw [flatten_group, ih, behind, flatten_append, List.append_assoc]
  | case2 tokens hne =>
    rw [behind.eq_2 tokens hne]
    simp [flatten]

/-- A group in front is as good as the tokens in it, whatever follows. -/
theorem ofTokens_group (inner rest : List Token) :
    ofTokens (.group false inner :: rest) = ofTokens inner := by
  rw [ofTokens, ofTokens, unwrap]

/-! ## What is accepted -/

theorem ofUnsignedTokens_eq_ok {negative : Bool} {tokens : List Token} {p : LiteralParts}
    (h : ofUnsignedTokens negative tokens = .ok p) : ∃ text, tokens = [.literal text] := by
  rw [ofUnsignedTokens.eq_def] at h
  split at h
  · exact nomatch h
  · exact ⟨_, rfl⟩
  · exact nomatch h
  · exact nomatch h

/-- Only a literal with a minus sign inside is spelled as two tokens. -/
theorem spell_cases (token : Token) :
    spell token = [token] ∨
      ∃ text, token = .literal ('-' :: text) ∧ spell token = [.punct '-', .literal text] := by
  rw [spell.eq_def]
  split
  · exact .inr ⟨_, rfl, rfl⟩
  · exact .inl rfl

theorem flatMap_spell_eq_nil {tokens : List Token} (h : tokens.flatMap spell = []) :
    tokens = [] := by
  cases tokens with
  | nil => rfl
  | cons token rest =>
    obtain hs | ⟨text, -, hs⟩ := spell_cases token
    · simp [hs] at h
    · simp [hs] at h

theorem flatMap_spell_eq_literal {tokens : List Token} {text : List Char}
    (h : tokens.flatMap spell = [.literal text]) : tokens = [.literal text] := by
  cases tokens with
  | nil => exact nomatch h
  | cons token rest =>
    rw [List.flatMap_cons] at h
    obtain hs | ⟨_, -, hs⟩ := spell_cases token
    · rw [hs] at h
      obtain ⟨rfl, hr⟩ := List.cons.inj h
      rw [flatMap_spell_eq_nil hr]
    · rw [hs] at h
      cases h

theorem flatMap_spell_eq_punct_literal {tokens : List Token} {c : Char} {text : List Char}
    (h : tokens.flatMap spell = [.punct c, .literal text]) :
    tokens = [.punct c, .literal text] ∨ tokens = [.literal ('-' :: text)] := by
  cases tokens with
  | nil => exact nomatch h
  | cons token rest =>
    rw [List.flatMap_cons] at h
    obtain hs | ⟨inner, rfl, hs⟩ := spell_cases token
    · rw [hs] at h
      obtain ⟨rfl, hr⟩ := List.cons.inj h
      exact .inl (congrArg _ (flatMap_spell_eq_literal hr))
    · rw [hs] at h
      obtain ⟨-, ht, hr⟩ : _ ∧ inner = text ∧ rest.flatMap spell = [] := by simpa using h
      rw [ht, flatMap_spell_eq_nil hr]
      exact .inr rfl

/-- The tokens that count are an optional sign and one literal, with nothing before, between or
behind. -/
theorem unwrap_of_ofTokens {tokens : List Token} {p : LiteralParts} (h : ofTokens tokens = .ok p) :
    ∃ (sign : Sign) (text : List Char), unwrap tokens = sign.tokens ++ [.literal text] := by
  rw [ofTokens] at h
  generalize unwrap tokens = front at h
  split at h
  · rename_i rest hf
    obtain ⟨text, rfl⟩ := ofUnsignedTokens_eq_ok h
    obtain rfl | rfl := flatMap_spell_eq_punct_literal hf
    · exact ⟨.minus, text, rfl⟩
    · exact ⟨.absent, '-' :: text, rfl⟩
  · rename_i rest hf
    obtain ⟨text, rfl⟩ := ofUnsignedTokens_eq_ok h
    obtain rfl | rfl := flatMap_spell_eq_punct_literal hf
    · exact ⟨.plus, text, rfl⟩
    · exact ⟨.absent, '-' :: text, rfl⟩
  · obtain ⟨text, hf⟩ := ofUnsignedTokens_eq_ok h
    exact ⟨.absent, text, flatMap_spell_eq_literal hf⟩

theorem eq_nil_of_sign_literal_append {sign sign' : Sign} {text text' : List Char}
    {rest : List Token}
    (h : sign.tokens ++ .literal text :: rest = sign'.tokens ++ [.literal text']) : rest = [] := by
  cases sign <;> cases sign' <;> simp_all [Sign.tokens]

/-- An accepted list is an optional sign and one literal, apart from groups, and then the tokens
behind the groups in front, which may be anything. So no token is left out exactly if there are
none of these. -/
theorem ofTokens_leaves_out_only_behind {tokens : List Token} {p : LiteralParts}
    (h : ofTokens tokens = .ok p) :
    (∃ (sign : Sign) (text : List Char),
      flatten tokens = sign.tokens ++ .literal text :: flatten (behind tokens)) ∧
    ((∃ (sign : Sign) (text : List Char), flatten tokens = sign.tokens ++ [.literal text]) ↔
      flatten (behind tokens) = []) ∧
    ∀ rest, ofTokens (.group false tokens :: rest) = .ok p := by
  obtain ⟨sign, text, hu⟩ := unwrap_of_ofTokens h
  have hf : flatten tokens = sign.tokens ++ .literal text :: flatten (behind tokens) := by
    rw [flatten_eq, hu, flatten_sign_literal, List.append_assoc, List.singleton_append]
  refine ⟨⟨sign, text, hf⟩, ⟨?_, ?_⟩, ?_⟩
  · rintro ⟨sign', text', hf'⟩
    exact eq_nil_of_sign_literal_append (hf.symm.trans hf')
  · intro hb
    refine ⟨sign, text, ?_⟩
    rw [hf, hb]
  · intro rest
    rw [ofTokens_group, h]

/-- The tokens of `1 + 2`, where `1` is in a group of its own. -/
def groupedSum : List Token := [.group false [.literal ['1']], .punct '+', .literal ['2']]

theorem exists_ofTokens_groupedSum : ∃ p, ofTokens groupedSum = .ok p := by
  refine ⟨⟨false, toWords 1, 0, by decide⟩, ?_⟩
  rw [groupedSum, ofTokens_group]
  exact ofTokens_literal .absent (by decide) 0

/-- The sum is taken for the literal `1`. -/
theorem ofTokens_leaves_out_summand :
    ∃ p, ofTokens groupedSum = .ok p ∧ flatten (behind groupedSum) = [.punct '+', .literal ['2']] ∧
      (∃ (sign : Sign) (text : List Char),
        flatten groupedSum = sign.tokens ++ .literal text :: flatten (behind groupedSum)) := by
  obtain ⟨p, hp⟩ := exists_ofTokens_groupedSum
  exact ⟨p, hp, by simp [groupedSum, behind, flatten], (ofTokens_leaves_out_only_behind hp).1⟩

/-- So it is not true that no token is left out. -/
theorem not_forall_ofTokens_reads_all :
    ¬ ∀ (tokens : List Token) (p : LiteralParts), ofTokens tokens = .ok p →
      ∃ (sign : Sign) (text : List Char), flatten tokens = sign.tokens ++ [.literal text] := by
  intro h
  obtain ⟨p, hp⟩ := exists_ofTokens_groupedSum
  obtain ⟨sign, text, hf⟩ := h groupedSum p hp
  have hl : flatten groupedSum = [.literal ['1'], .punct '+', .literal ['2']] := by
    simp [groupedSum, flatten]
  rw [hl] at hf
  cases sign <;> simp [Sign.tokens] at hf

end ExactDecimal.LiteralParts
