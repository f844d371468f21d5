import CircuitSections.Circuit.Entity
import CircuitSections.Condition.Basic
import CircuitSections.Section.Multiplier

/-!
# Errors

Why a configuration is refused, and why an engine operation fails.  Each cause
has one text.
-/

namespace CircuitSections

/-- Why a configuration is refused. -/
inductive ValidationError
  /-- `anything` or `everything` stands on the right. -/
  | quantifierOnRight (index : Nat) (selector : Selector)
  /-- `each` stands on the right without standing on the left. -/
  | eachWithoutEach (index : Nat)
  /-- A condition after the first does not say how it joins those before it. -/
  | missingCombineOp (index : Nat)
  | blankSignalName
  | blankGroupName
  /-- A group name has more than the given number of bytes. -/
  | groupNameTooLong (max : Nat)
  | multiplierOutOfRange (value : Multiplier)
  | tooManyRules (max actual : Nat)
  | tooManyConditions (max actual : Nat)
  | noRulesAllowed
  | noConditionsAllowed
  /-- A document does not hold limits. -/
  | unreadableLimits
  deriving DecidableEq

def ValidationError.message : ValidationError → String
  | .quantifierOnRight index selector =>
    let shown := selector.text
    s!"Condition {index}: '{shown}' is not allowed as the right operand"
  | .eachWithoutEach index =>
    s!"Condition {index}: 'each' on the right requires 'each' on the left"
  | .missingCombineOp index => s!"Condition {index}: missing and/or operator"
  | .blankSignalName => "Signal name cannot be empty"
  | .blankGroupName => "Group name cannot be empty"
  | .groupNameTooLong max =>
    s!"Field 'group_name' exceeds maximum length of {max}"
  | .multiplierOutOfRange value =>
    let shown := String.ofList value.text
    s!"Multiplier {shown} must be finite and greater than zero"
  | .tooManyRules max actual => s!"Too many rules: {actual} (max: {max})"
  | .tooManyConditions max actual =>
    s!"Too many conditions: {actual} (max: {max})"
  | .noRulesAllowed =>
    "Invalid engine configuration: max_rules_per_combinator must be > 0"
  | .noConditionsAllowed =>
    "Invalid engine configuration: max_conditions_per_rule must be > 0"
  | .unreadableLimits =>
    "Invalid engine configuration: invalid engine config: the document holds no limits"

/-- Why an engine operation fails. -/
inductive EngineError
  | validation (cause : ValidationError)
  /-- No combinator has this number. -/
  | combinatorNotFound (id : CombinatorId)
  /-- A combinator with this number is already there. -/
  | duplicateCombinator (id : CombinatorId)
  /-- Something failed that the caller does not control. -/
  | internal (message : String)
  deriving DecidableEq

namespace EngineError

def message : EngineError → String
  | .validation cause => "Validation error: " ++ cause.message
  | .combinatorNotFound id =>
    "Execution error: Combinator not found: " ++ id.text
  | .duplicateCombinator id =>
    "Execution error: Combinator already registered: " ++ id.text
  | .internal message => "Internal error: " ++ message

def isValidation : EngineError → Bool
  | .validation _ => true
  | _ => false

/-- Whether an operation named the wrong combinator. -/
def isExecution : EngineError → Bool
  | .combinatorNotFound _ => true
  | .duplicateCombinator _ => true
  | _ => false

/-- Whether the failure is outside the caller's control. -/
def isInternal : EngineError → Bool
  | .internal _ => true
  | _ => false

end EngineError

end CircuitSections
