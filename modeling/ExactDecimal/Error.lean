/-!
What can go wrong: one type for texts, one for arithmetic, and one that covers the whole library.
Each error is a cause, and its wording stands in one place.
-/
namespace ExactDecimal

/-- Why a text, or a binary number, is no decimal. -/
inductive ParseError where
  | noDigits
  | multiplePoints
  | missingExponent
  | malformedExponent
  | unrecognized (c : Char)
  | notFinite
  deriving DecidableEq, Repr

def ParseError.message : ParseError → String
  | .noDigits => "no digits seen"
  | .multiplePoints => "multiple `.`s in number"
  | .missingExponent => "no exponent following `e` or `E`"
  | .malformedExponent => "malformed exponent"
  | .unrecognized c => "unrecognized character: `" ++ c.toString ++ "`"
  | .notFinite => "NaN or infinite float cannot be represented as a decimal"

/-- Why an operation on decimals has no result. -/
inductive ArithmeticError where
  | divisionByZero
  | roundingNecessary
  | negativeScale (scale : Int)
  | scaleOverflow
  deriving DecidableEq, Repr

def ArithmeticError.message : ArithmeticError → String
  | .divisionByZero => "division by zero"
  | .roundingNecessary => "rounding necessary"
  | .negativeScale scale => "scale is negative: " ++ toString scale
  | .scaleOverflow => "scale out of range"

/-- Any failure of the library. A product without a result is told apart from other overflows. -/
inductive Failure where
  | parse (cause : ParseError)
  | arithmetic (cause : ArithmeticError)
  | roundingMode (code : Int)
  | product (cause : ArithmeticError)
  deriving DecidableEq, Repr

def Failure.message : Failure → String
  | .parse cause => cause.message
  | .arithmetic cause => cause.message
  | .roundingMode code => "illegal rounding mode: " ++ toString code
  | .product cause => "decimal multiplication failed: " ++ cause.message

/-! ## Steps that may fail, one after another -/

section Steps

variable {ε α β : Type}

@[simp] theorem ok_bind (a : α) (f : α → Except ε β) : (Except.ok a >>= f) = f a := rfl

@[simp] theorem error_bind (e : ε) (f : α → Except ε β) : (Except.error e >>= f) = .error e := rfl

theorem bind_eq_ok {x : Except ε α} {f : α → Except ε β} {b : β} (h : x >>= f = .ok b) :
    ∃ a, x = .ok a ∧ f a = .ok b := by
  cases x with
  | error e => exact nomatch h
  | ok a => exact ⟨a, rfl, h⟩

theorem bind_eq_error {x : Except ε α} {f : α → Except ε β} {e : ε} (h : x >>= f = .error e) :
    x = .error e ∨ ∃ a, x = .ok a ∧ f a = .error e := by
  cases x with
  | error cause => exact .inl (congrArg Except.error (Except.error.inj h))
  | ok a => exact .inr ⟨a, rfl, h⟩

/-- Results with one possible error between them are equal if they succeed alike. -/
theorem eq_of_ok_iff {x y : Except ε α} {e : ε} (hx : ∀ e', x = .error e' → e' = e)
    (hy : ∀ e', y = .error e' → e' = e) (h : ∀ a, x = .ok a ↔ y = .ok a) : x = y := by
  cases hxe : x with
  | ok a => exact ((h a).mp hxe).symm
  | error cause =>
    cases hye : y with
    | ok b => exact nomatch hxe.symm.trans ((h b).mpr hye)
    | error cause' => rw [hx cause hxe, hy cause' hye]

/-- An error that the whole does not have is not one of its first step. -/
theorem ne_error_of_bind {x : Except ε α} {f : α → Except ε β} {e : ε}
    (h : x >>= f ≠ .error e) : x ≠ .error e := by
  rintro rfl
  exact h rfl

theorem map_eq_error_iff {x : Except ε α} {f : α → β} {e : ε} :
    x.map f = .error e ↔ x = .error e := by
  cases x with
  | error cause =>
    constructor
    · intro h
      exact congrArg Except.error (Except.error.inj h)
    · intro h
      cases h
      rfl
  | ok a => exact ⟨nofun, nofun⟩

theorem mapError_eq_ok_iff {δ : Type} {x : Except ε α} {f : ε → δ} {a : α} :
    x.mapError f = .ok a ↔ x = .ok a := by
  cases x with
  | error cause => exact ⟨nofun, nofun⟩
  | ok b =>
    constructor
    · intro h
      exact congrArg Except.ok (Except.ok.inj h)
    · intro h
      cases h
      rfl

theorem mapError_eq_error_iff {δ : Type} {x : Except ε α} {f : ε → δ} {e : δ} :
    x.mapError f = .error e ↔ ∃ cause, x = .error cause ∧ f cause = e := by
  cases x with
  | error cause =>
    constructor
    · intro h
      exact ⟨cause, rfl, Except.error.inj h⟩
    · rintro ⟨_, h, rfl⟩
      cases h
      rfl
  | ok a => exact ⟨nofun, nofun⟩

end Steps

end ExactDecimal
