/-!
# Sixty-four-bit magnitudes

The non-negative numbers that the sixty-three low bits of an IEEE 754 double
denote, numbered in ascending order.  All of them are whole multiples of the
least positive one, so their values are natural numbers (`units`) and rounding
a quotient needs no other arithmetic.
-/

namespace CircuitSections.Binary64

/-- The number of the first magnitude that is not finite. -/
def infinity : Nat := 2047 * Nat.pow 2 52

/-- The exponent of two of the least positive magnitude, negated. -/
def unitExponent : Nat := 1074

/-- The value of magnitude `n`, in units of the least positive one.

The first `2 ^ 53` magnitudes are one unit apart, and from there on the distance
doubles after every `2 ^ 52` of them. -/
def units (n : Nat) : Nat :=
  let doublings := n / Nat.pow 2 52 - 1
  (n - doublings * Nat.pow 2 52) * Nat.pow 2 doublings

/-- The greatest magnitude of at most `u` units. -/
def floor (u : Nat) : Nat :=
  let doublings := u.log2 - 52
  doublings * Nat.pow 2 52 + u / Nat.pow 2 doublings

/-- The magnitude nearest to a quotient; of two equally near ones the even. -/
def nearest (numerator denominator : Nat) : Nat :=
  let scaled := numerator * Nat.pow 2 unitExponent
  let n := floor (scaled / denominator)
  match compare (2 * scaled) (denominator * (units n + units (n + 1))) with
  | .lt => n
  | .gt => n + 1
  | .eq => n + n % 2

/-- The quotient that a coefficient and a power of ten denote. -/
def quotient (coefficient : Nat) (power : Int) : Nat × Nat :=
  if 0 ≤ power then (coefficient * Nat.pow 10 power.toNat, 1)
  else (coefficient, Nat.pow 10 (-power).toNat)

/-- The magnitude nearest to a decimal number, unless that is not finite.

A number of more than 310 whole digits is beyond the finite magnitudes and one
with 330 zeros behind its point is nearest to zero; neither is computed. -/
def ofDecimal? (coefficient : Nat) (power : Int) : Option Nat :=
  if coefficient = 0 then some 0
  else
    let point := (Nat.toDigits 10 coefficient).length + power
    if 310 < point then none
    else if point < -330 then some 0
    else
      let n :=
        nearest (quotient coefficient power).1 (quotient coefficient power).2
      if n < infinity then some n else none

end CircuitSections.Binary64
