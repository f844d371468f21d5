/-!
# Limits

How many rules a combinator and how many conditions a rule may have.
-/

namespace CircuitSections

/-- The limits under which configurations are accepted. -/
structure Limits where
  rulesPerCombinator : UInt64
  conditionsPerRule : UInt64
  deriving DecidableEq

namespace Limits

/-- The limits where none are given. -/
def default : Limits := ⟨32, 16⟩

instance : Inhabited Limits := ⟨default⟩

end Limits

end CircuitSections
