import ExactDecimal.Text
/-!
The language of number texts, apart from any reader: an optional sign, digits with at most one
point among them, and an optional exponent. A spelling keeps what a reader forgets, such as a plus
sign, a point at the end or leading zeros, so that its text can be told from it.
-/
namespace ExactDecimal.Text

/-- A run of ASCII digits, possibly empty. -/
def Digits (text : List Char) : Prop := ∀ c ∈ text, c.isDigit = true

instance (text : List Char) : Decidable (Digits text) :=
  decidable_of_iff (text.all Char.isDigit = true) List.all_eq_true

@[simp] theorem digits_nil : Digits [] := fun _ h => nomatch h

theorem Digits.append {a b : List Char} (ha : Digits a) (hb : Digits b) : Digits (a ++ b) := by
  intro c hc
  cases List.mem_append.mp hc with
  | inl h => exact ha c h
  | inr h => exact hb c h

theorem Digits.left {a b : List Char} (h : Digits (a ++ b)) : Digits a :=
  fun c hc => h c (List.mem_append_left b hc)

theorem Digits.right {a b : List Char} (h : Digits (a ++ b)) : Digits b :=
  fun c hc => h c (List.mem_append_right a hc)

theorem digits_numeral (n : Nat) : Digits (numeral n) := fun _ h => isDigit_of_mem_numeral h

theorem digits_replicate_zero (k : Nat) : Digits (List.replicate k '0') := by
  intro c hc
  rw [List.eq_of_mem_replicate hc]
  decide

theorem isMarker_iff {c : Char} : isMarker c = true ↔ c = 'e' ∨ c = 'E' := by
  rw [isMarker, Bool.or_eq_true, decide_eq_true_iff, decide_eq_true_iff]

theorem isMarker_of_isDigit {c : Char} (h : c.isDigit = true) : isMarker c = false := by
  rw [← Bool.not_eq_true, isMarker_iff]
  rintro (rfl | rfl)
  · exact absurd h (by decide)
  · exact absurd h (by decide)

/-- Whether a text begins with a sign. -/
def StartsSigned (text : List Char) : Prop := text.head? = some '+' ∨ text.head? = some '-'

instance (text : List Char) : Decidable (StartsSigned text) :=
  inferInstanceAs (Decidable (text.head? = some '+' ∨ text.head? = some '-'))

theorem not_startsSigned_of_isDigit {c : Char} (h : c.isDigit = true) (rest : List Char) :
    ¬ StartsSigned (c :: rest) := by
  rintro (hc | hc)
  · cases hc
    exact absurd h (by decide)
  · cases hc
    exact absurd h (by decide)

theorem not_startsSigned_digits {digits : List Char} (h : Digits digits) (hne : digits ≠ []) :
    ¬ StartsSigned digits := by
  cases digits with
  | nil => exact absurd rfl hne
  | cons c rest => exact not_startsSigned_of_isDigit (h c List.mem_cons_self) rest

/-- A sign that may be left out. -/
inductive Sign where
  | absent | plus | minus
  deriving DecidableEq, Repr

namespace Sign

def chars : Sign → List Char
  | absent => []
  | plus => ['+']
  | minus => ['-']

def isMinus : Sign → Bool
  | minus => true
  | _ => false

/-- A sign that is written only below zero. -/
def ofNegative (negative : Bool) : Sign := if negative then minus else absent

@[simp] theorem isMinus_ofNegative (negative : Bool) : (ofNegative negative).isMinus = negative := by
  cases negative with
  | false => rfl
  | true => rfl

theorem chars_ofNegative (negative : Bool) :
    (ofNegative negative).chars = if negative then ['-'] else [] := by
  cases negative with
  | false => rfl
  | true => rfl

end Sign

/-- Digits with at most one point among them. One of the two runs may be empty, but not both. -/
structure Figures where
  whole : List Char
  /-- The digits behind the point, if there is a point. -/
  fraction : Option (List Char)
  digits_spec : Digits (whole ++ fraction.getD [])
  digits_ne_nil : whole ++ fraction.getD [] ≠ []

namespace Figures

def chars (f : Figures) : List Char := f.whole ++ f.fraction.elim [] ('.' :: ·)

/-- The integer that the digits spell with the point left out. -/
def number (f : Figures) : Nat := ofNumeral (f.whole ++ f.fraction.getD [])

/-- How many digits stand behind the point. -/
def places (f : Figures) : Nat := (f.fraction.getD []).length

def mantissa (f : Figures) : Mantissa := ⟨f.whole, f.fraction.getD []⟩

theorem chars_of_none {f : Figures} (h : f.fraction = none) : f.chars = f.whole := by
  rw [chars, h, Option.elim_none, List.append_nil]

theorem chars_of_some {f : Figures} {fraction : List Char} (h : f.fraction = some fraction) :
    f.chars = f.whole ++ '.' :: fraction := by
  rw [chars, h, Option.elim_some]

theorem isDigit_or_eq_point {f : Figures} {c : Char} (hc : c ∈ f.chars) :
    c.isDigit = true ∨ c = '.' := by
  cases hf : f.fraction with
  | none =>
    rw [chars_of_none hf] at hc
    exact .inl (f.digits_spec.left c hc)
  | some fraction =>
    have hd := f.digits_spec.right
    rw [hf] at hd
    rw [chars_of_some hf, List.mem_append, List.mem_cons] at hc
    obtain hc | rfl | hc := hc
    · exact .inl (f.digits_spec.left c hc)
    · exact .inr rfl
    · exact .inl (hd c hc)

theorem not_isMarker {f : Figures} {c : Char} (hc : c ∈ f.chars) : isMarker c = false := by
  obtain h | rfl := isDigit_or_eq_point hc
  · exact isMarker_of_isDigit h
  · decide

theorem chars_ne_nil (f : Figures) : f.chars ≠ [] := by
  cases hf : f.fraction with
  | none =>
    have hne := f.digits_ne_nil
    rw [hf, Option.getD_none, List.append_nil] at hne
    rwa [chars_of_none hf]
  | some fraction => simp [chars_of_some hf]

end Figures

/-- An exponent: its marker, an optional sign and at least one digit. -/
structure Exponent where
  marker : Char
  sign : Sign
  digits : List Char
  marker_spec : isMarker marker = true
  digits_spec : Digits digits
  digits_ne_nil : digits ≠ []

namespace Exponent

/-- What follows the marker. -/
def tail (e : Exponent) : List Char := e.sign.chars ++ e.digits

def chars (e : Exponent) : List Char := e.marker :: e.tail

def value (e : Exponent) : Int := signed e.sign.isMinus (ofNumeral e.digits)

end Exponent

/-- A number text taken apart. -/
structure Spelling where
  sign : Sign
  figures : Figures
  exponent : Option Exponent

namespace Spelling

/-- What follows the sign. -/
def body (s : Spelling) : List Char := s.figures.chars ++ s.exponent.elim [] Exponent.chars

def chars (s : Spelling) : List Char := s.sign.chars ++ s.body

/-- The integer that sign and digits spell with the point left out. -/
def coefficient (s : Spelling) : Int := signed s.sign.isMinus s.figures.number

def places (s : Spelling) : Nat := s.figures.places

/-- The written power of ten; none is written for the power zero. -/
def power (s : Spelling) : Int := s.exponent.elim 0 Exponent.value

/-- Magnitude and scale of what is spelled. -/
def parts (s : Spelling) : Int × Int :=
  match s.exponent with
  | none => (s.coefficient, s.places)
  | some e =>
    if s.coefficient = 0 then (0, 0)
    else if s.places < e.value then (s.coefficient * pow10 (e.value - s.places).toNat, 0)
    else (s.coefficient, s.places - e.value)

/-- Whether exponent and scale are possible scales. -/
abbrev InRange (s : Spelling) : Prop := ScaleFits s.power ∧ ScaleFits s.parts.2

theorem power_eq (s : Spelling) : s.power = (s.exponent.map Exponent.value).getD 0 := by
  rw [power]
  cases s.exponent with
  | none => rfl
  | some e => rfl

theorem power_of_none {s : Spelling} (h : s.exponent = none) : s.power = 0 := by
  rw [power, h, Option.elim_none]

theorem power_of_some {s : Spelling} {e : Exponent} (h : s.exponent = some e) :
    s.power = e.value := by
  rw [power, h, Option.elim_some]

theorem body_of_none {s : Spelling} (h : s.exponent = none) : s.body = s.figures.chars := by
  rw [body, h, Option.elim_none, List.append_nil]

theorem body_of_some {s : Spelling} {e : Exponent} (h : s.exponent = some e) :
    s.body = s.figures.chars ++ e.marker :: e.tail := by
  rw [body, h, Option.elim_some, Exponent.chars]

theorem not_startsSigned_body (s : Spelling) : ¬ StartsSigned s.body := by
  cases hf : s.figures.chars with
  | nil => exact absurd hf s.figures.chars_ne_nil
  | cons c rest =>
    rw [body, hf]
    have hc : c ∈ s.figures.chars := hf ▸ List.mem_cons_self
    obtain hd | rfl := Figures.isDigit_or_eq_point hc
    · exact not_startsSigned_of_isDigit hd _
    · rintro (h | h)
      · exact nomatch h
      · exact nomatch h

end Spelling

end ExactDecimal.Text
