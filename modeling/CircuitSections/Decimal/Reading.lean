import CircuitSections.Decimal.Binary64
import CircuitSections.Decimal.Numeral

/-!
# Reading numerals

The magnitude that a numeral is read as.  As many leading digits as fit into
sixty-four bits are rounded to a magnitude, and this is multiplied or divided by
powers of ten that are magnitudes themselves.  Each step rounds, so the result
can be a few places away from the magnitude nearest to the numeral.
-/

namespace CircuitSections

namespace Binary64

/-- The magnitude nearest to a product of two. -/
def product (a b : Nat) : Nat :=
  nearest (units a * units b) (Nat.pow 2 (2 * unitExponent))

/-- The magnitude nearest to a ratio of two. -/
def ratio (a b : Nat) : Nat := nearest (units a) (units b)

/-- The greatest exponent of ten whose power is a finite magnitude. -/
def greatestPower : Nat := 308

/-- The magnitude nearest to a power of ten. -/
def tenTo (exponent : Nat) : Nat := nearest (Nat.pow 10 exponent) 1

/-- A magnitude that is divided by a power of ten.

A power beyond the greatest finite one is divided by in two steps, and two steps
of the greatest one leave nothing of a number below `2 ^ 64`. -/
def lowered (magnitude exponent : Nat) : Nat :=
  if exponent ≤ greatestPower then ratio magnitude (tenTo exponent)
  else
    ratio (ratio magnitude (tenTo greatestPower))
      (tenTo (min (exponent - greatestPower) greatestPower))

/-- A magnitude that is multiplied by a power of ten, unless the result or the
power is not finite. -/
def raised? (magnitude exponent : Nat) : Option Nat :=
  if exponent ≤ greatestPower then
    let result := product magnitude (tenTo exponent)
    if result < infinity then some result else none
  else none

end Binary64

namespace Numeral

/-- A coefficient with as many further digits as keep it below `2 ^ 64`, and the
digits that are left. -/
def gather : (coefficient : Nat) → List Char → Nat × List Char
  | coefficient, [] => (coefficient, [])
  | coefficient, digit :: digits =>
    let longer := Nat.ofDigitChars 10 [digit] coefficient
    if longer < UInt64.size then gather longer digits
      else (coefficient, digit :: digits)

/-- The coefficient and the power of ten that are taken from a numeral.

Digits of the whole part that do not fit count in the power; the fraction is
tried after them. -/
def leading (n : Numeral) : Nat × Int :=
  let (whole, dropped) :=
    gather 0 (Nat.toDigits 10 (n.coefficient / Nat.pow 10 n.scale))
  let (coefficient, ignored) :=
    gather whole (Digits.fixed 10 n.scale (n.coefficient % Nat.pow 10 n.scale))
  (coefficient, n.power + dropped.length + ignored.length)

/-- The magnitude that a numeral is read as, unless that is not finite. -/
def magnitude? (n : Numeral) : Option Nat :=
  let (coefficient, power) := n.leading
  let magnitude := Binary64.nearest coefficient 1
  if coefficient = 0 then some 0
  else if power < 0 then some (Binary64.lowered magnitude (-power).toNat)
  else Binary64.raised? magnitude power.toNat

end Numeral

end CircuitSections
