import CircuitSections.Text.Digits

/-!
# Decimal numerals

A numeral is what a JSON number spells: a sign, a whole part without needless
zeros, perhaps a fraction and perhaps an exponent.  The digits of the whole part
and of the fraction together are the coefficient, and the scale counts those of
the fraction, so every spelling up to the form of its exponent is one numeral.
-/

namespace CircuitSections

/-- A signed decimal numeral. -/
structure Numeral where
  /-- Whether a minus sign stands in front. -/
  negative : Bool
  /-- The digits of the whole part and of the fraction, read as one number. -/
  coefficient : Nat
  /-- The number of digits after the point; without any there is no point. -/
  scale : Nat
  exponent : Option Int
  deriving DecidableEq

namespace Numeral

def ofInt (value : Int) : Numeral := ⟨value < 0, value.natAbs, 0, none⟩

def ofNat (value : Nat) : Numeral := ⟨false, value, 0, none⟩

/-- The integer that a numeral without fraction and exponent spells; a negated
zero is none. -/
def integer? (n : Numeral) : Option Int :=
  if n.scale = 0 ∧ n.exponent = none then
    if n.negative then
      if n.coefficient = 0 then none else some (-n.coefficient)
    else some n.coefficient
  else none

/-- The power of ten by which the coefficient is multiplied. -/
def power (n : Numeral) : Int := n.exponent.getD 0 - n.scale

/-- Whole part and fraction as digits around a point. -/
def pointed (coefficient scale : Nat) : List Char :=
  Nat.toDigits 10 (coefficient / Nat.pow 10 scale) ++
    if scale = 0 then []
      else '.' :: Digits.fixed 10 scale (coefficient % Nat.pow 10 scale)

/-- The digits of an integer after its sign. -/
def signed (value : Int) : List Char :=
  (if value < 0 then '-' else '+') :: Nat.toDigits 10 value.natAbs

def text (n : Numeral) : List Char :=
  (if n.negative then ['-'] else []) ++ pointed n.coefficient n.scale ++
    match n.exponent with
    | none => []
    | some exponent => 'e' :: signed exponent

/-- The leading digits of a text and what follows them; there must be one. -/
def scanDigits (text : List Char) : Option (List Char × List Char) :=
  match text.takeWhile Char.isDigit with
  | [] => none
  | digits => some (digits, text.dropWhile Char.isDigit)

/-- The whole part: a zero, or digits that start with another. -/
def scanWhole (text : List Char) : Option (List Char × List Char) :=
  match scanDigits text with
  | some ('0' :: _ :: _, _) => none
  | other => other

/-- The fraction, empty unless a point follows. -/
def scanFraction : List Char → Option (List Char × List Char)
  | '.' :: rest => scanDigits rest
  | text => some ([], text)

/-- The digits of an exponent, after an optional sign. -/
def scanSigned : List Char → Option (Int × List Char)
  | '-' :: rest => (scanDigits rest).map fun (digits, rest) =>
      (-(Nat.ofDigitChars 10 digits 0 : Int), rest)
  | '+' :: rest => (scanDigits rest).map fun (digits, rest) =>
      ((Nat.ofDigitChars 10 digits 0 : Int), rest)
  | text => (scanDigits text).map fun (digits, rest) =>
      ((Nat.ofDigitChars 10 digits 0 : Int), rest)

/-- The exponent, absent unless its letter follows. -/
def scanExponent : List Char → Option (Option Int × List Char)
  | 'e' :: rest => (scanSigned rest).map fun (value, rest) => (some value, rest)
  | 'E' :: rest => (scanSigned rest).map fun (value, rest) => (some value, rest)
  | text => some (none, text)

/-- The parts after the sign. -/
def scanUnsigned (negative : Bool) (text : List Char) :
    Option (Numeral × List Char) := do
  let (whole, afterWhole) ← scanWhole text
  let (fraction, afterFraction) ← scanFraction afterWhole
  let (exponent, rest) ← scanExponent afterFraction
  return (⟨negative, Nat.ofDigitChars 10 (whole ++ fraction) 0, fraction.length,
    exponent⟩, rest)

/-- The numeral at the start of a text and what follows it. -/
def scan : List Char → Option (Numeral × List Char)
  | '-' :: rest => scanUnsigned true rest
  | text => scanUnsigned false text

end Numeral

end CircuitSections
