/-!
# Comparators

The six comparisons of a condition and their symbols.
-/

namespace CircuitSections

/-- A comparison of two counts. -/
inductive Comparator
  | less
  | greater
  | equal
  | notEqual
  | lessOrEqual
  | greaterOrEqual
  deriving DecidableEq

namespace Comparator

def holds : Comparator → Int32 → Int32 → Bool
  | .less, left, right => left < right
  | .greater, left, right => right < left
  | .equal, left, right => left = right
  | .notEqual, left, right => left ≠ right
  | .lessOrEqual, left, right => left ≤ right
  | .greaterOrEqual, left, right => right ≤ left

def symbol : Comparator → String
  | .less => "<"
  | .greater => ">"
  | .equal => "="
  | .notEqual => "≠"
  | .lessOrEqual => "≤"
  | .greaterOrEqual => "≥"

/-- Every comparison, in the order of their declaration. -/
def all : List Comparator :=
  [.less, .greater, .equal, .notEqual, .lessOrEqual, .greaterOrEqual]

end Comparator

end CircuitSections
