import CircuitSections.Condition.Validity
import CircuitSections.Limits
import CircuitSections.Section.Validity

/-!
# Rule configurations

What a player sets up: conditions, what to do while they hold, and the section
to do it with.
-/

namespace CircuitSections

/-- What a rule does while its conditions hold. -/
inductive RuleAction
  /-- Keep the rule's section on every connected target. -/
  | inject
  /-- Clear every section that the combinator injected. -/
  | remove
  deriving DecidableEq

/-- The configuration of a rule. -/
structure RuleConfig where
  conditions : List Condition
  action : RuleAction
  spec : SectionSpec

namespace RuleConfig

/-- Whether two configurations are the same; their sections are compared as
specs. -/
def same (a b : RuleConfig) : Bool :=
  a.conditions = b.conditions && a.action = b.action && a.spec.same b.spec

/-- Checks the number of conditions, then each of them, then the section. -/
def validate (config : RuleConfig) (limits : Limits) :
    Except ValidationError Unit :=
  let max := limits.conditionsPerRule.toNat
  if max < config.conditions.length then
    .error (.tooManyConditions max config.conditions.length)
  else do
    Condition.validateAll config.conditions
    config.spec.validate

end RuleConfig

end CircuitSections
