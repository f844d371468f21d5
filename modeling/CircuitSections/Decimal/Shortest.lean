import CircuitSections.Decimal.Binary64

/-!
# Shortest decimals

The decimal with the fewest digits that is nearest to a given magnitude: the
coarsest power-of-ten grid with a point that reads back as the magnitude, and of
two such points the nearer.
-/

namespace CircuitSections

/-- Which of two equally near decimals is written. -/
inductive Tie
  /-- The greater one. -/
  | up
  /-- The one whose last digit is even. -/
  | even
  deriving DecidableEq

namespace Binary64

/-- The two points of the grid of step `10 ^ power` around magnitude `n`, the
nearer first. -/
def neighbours (tie : Tie) (n : Nat) (power : Int) : List Nat :=
  let step := (quotient 1 power).1 * Nat.pow 2 unitExponent
  let value := units n * (quotient 1 power).2
  let low := value / step
  match compare (2 * (value % step)) step with
  | .lt => [low, low + 1]
  | .gt => [low + 1, low]
  | .eq =>
    if tie = .even ∧ low % 2 = 0 then [low, low + 1] else [low + 1, low]

/-- The point of a grid that reads back as magnitude `n`. -/
def onGrid? (tie : Tie) (n : Nat) (power : Int) : Option Nat :=
  (neighbours tie n power).find? fun coefficient =>
    ofDecimal? coefficient power = some n

/-- Coefficient and power of ten of the shortest decimal for magnitude `n`.

The search starts at the grid whose step exceeds the magnitude and ends at the
one that holds every magnitude exactly. -/
def shortest (tie : Tie) (n : Nat) : Nat × Int :=
  if n = 0 then (0, 0)
  else
    let start := (Nat.toDigits 10 (units n / Nat.pow 2 unitExponent)).length
    let found :=
      (List.range (start + unitExponent + 1)).findSome? fun (i : Nat) =>
      let power : Int := start - i
      (onGrid? tie n power).map fun coefficient => (coefficient, power)
    found.getD (units n * Nat.pow 5 unitExponent, -unitExponent)

end Binary64

end CircuitSections
