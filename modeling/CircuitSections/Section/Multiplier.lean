import CircuitSections.Decimal.Reading
import CircuitSections.Decimal.Shortest

/-!
# Multipliers

A multiplier is a sixty-four-bit floating-point number, kept as its bits.  It is
ordered by `rank`: the two zeros have one rank, and all that is not a number has
one rank above the rest.
-/

namespace CircuitSections

/-- The bits of a floating-point number. -/
structure Multiplier where
  bits : UInt64
  deriving DecidableEq

namespace Multiplier

def ofParts (negative : Bool) (magnitude : Nat) : Multiplier :=
  ⟨UInt64.ofNat ((if negative then Nat.pow 2 63 else 0) + magnitude)⟩

/-- Whether the sign bit is set. -/
def negative (m : Multiplier) : Bool := Nat.pow 2 63 ≤ m.bits.toNat

/-- The bits below the sign. -/
def magnitude (m : Multiplier) : Nat := m.bits.toNat % Nat.pow 2 63

/-- Whether the bits denote no number. -/
def isNaN (m : Multiplier) : Bool := Binary64.infinity < m.magnitude

/-- Whether the bits denote a number other than the two infinities. -/
def isFinite (m : Multiplier) : Bool := m.magnitude < Binary64.infinity

/-- The place of a multiplier in ascending order. -/
def rank (m : Multiplier) : Int :=
  if m.isNaN then Nat.pow 2 63
  else if m.negative then -m.magnitude
  else m.magnitude

/-- The greatest multiplier but for those that are no numbers. -/
def infinity : Multiplier := ofParts false Binary64.infinity

def negativeInfinity : Multiplier := ofParts true Binary64.infinity

/-- A multiplier that is no number. -/
def nan : Multiplier := ofParts false (Binary64.infinity + Nat.pow 2 51)

/-- The finite multiplier that a numeral is read as. -/
def ofNumeral? (n : Numeral) : Option Multiplier :=
  n.magnitude?.map (ofParts n.negative)

/-- The most digits that stand before the point of a saved multiplier. -/
def savedWhole : Int := 16

/-- One more than the most zeros that stand right behind its point. -/
def savedZeros : Int := 5

/-- The numeral under which a finite multiplier is saved.

It has the fewest digits, and of two equally near decimals the even one; a whole
number keeps one zero behind its point, and very large and very small numbers
have an exponent. -/
def numeral? (m : Multiplier) : Option Numeral :=
  if m.isFinite then
    let (coefficient, power) := Binary64.shortest .even m.magnitude
    let digits := (Nat.toDigits 10 coefficient).length
    let point := digits + power
    if 0 ≤ power ∧ point ≤ savedWhole then
      some ⟨m.negative, coefficient * Nat.pow 10 (power.toNat + 1), 1, none⟩
    else if power < 0 ∧ -savedZeros < point ∧ point ≤ savedWhole then
      some ⟨m.negative, coefficient, (-power).toNat, none⟩
    else
      some ⟨m.negative, coefficient, digits - 1, some (point - 1)⟩
  else none

/-- The text shown for a multiplier.

It has the fewest digits, and of two equally near decimals the greater one; it
never has an exponent, nor a point behind a whole number. -/
def text (m : Multiplier) : List Char :=
  if m.isNaN then "NaN".toList
  else
    (if m.negative then ['-'] else []) ++
      if m.isFinite then
        let (coefficient, power) := Binary64.shortest .up m.magnitude
        if 0 ≤
          power then Numeral.pointed (coefficient * Nat.pow 10 power.toNat) 0
        else Numeral.pointed coefficient (-power).toNat
      else "inf".toList

end Multiplier

end CircuitSections
