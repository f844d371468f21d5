import CircuitSections.Condition.Grouping
import CircuitSections.Rule.Config
import CircuitSections.Rule.Id

/-!
# Rules

A rule remembers whether its conditions held when it was last evaluated.  Only a
change of that result is an edge, so conditions that keep holding fire once.
-/

namespace CircuitSections

/-- A change of a rule's result. -/
structure RuleEdge where
  rule : RuleId
  /-- The new result. -/
  rising : Bool
  action : RuleAction
  spec : SectionSpec
  tick : UInt64

/-- The saved form of a rule. -/
structure RuleSnapshot where
  id : RuleId
  config : RuleConfig
  previousResult : Bool
  lastFired : Option UInt64

/-- Whether two saved forms are the same; configurations are compared as
such. -/
def RuleSnapshot.same (a b : RuleSnapshot) : Bool :=
  a.id = b.id && a.config.same b.config && a.previousResult =
    b.previousResult &&
    a.lastFired = b.lastFired

/-- A rule and what it remembers. -/
structure Rule where
  id : RuleId
  config : RuleConfig
  /-- The result of the latest evaluation. -/
  previousResult : Bool
  /-- The tick of the latest edge. -/
  lastFired : Option UInt64

namespace Rule

/-- A rule that has not held yet. -/
def fresh (id : RuleId) (config : RuleConfig) : Rule :=
  ⟨id, config, false, none⟩

/-- A rule for a configuration that the limits accept, under a fresh id. -/
def create (config : RuleConfig) (limits : Limits) (ids : RuleIdSupply) :
    Except ValidationError (Rule × RuleIdSupply) := do
  config.validate limits
  return (fresh ids.draw.1 config, ids.draw.2)

/-- The rule of a saved form, if the limits accept its configuration. -/
def restore (snapshot : RuleSnapshot) (limits : Limits) :
    Except ValidationError Rule := do
  snapshot.config.validate limits
  return ⟨snapshot.id, snapshot.config, snapshot.previousResult,
    snapshot.lastFired⟩

def snapshot (rule : Rule) : RuleSnapshot :=
  ⟨rule.id, rule.config, rule.previousResult, rule.lastFired⟩

/-- Whether two rules are the same. -/
def same (a b : Rule) : Bool := a.snapshot.same b.snapshot

/-- Whether the rule wants its section on the targets. -/
def isInjecting (rule : Rule) : Bool :=
  rule.previousResult && rule.config.action = .inject

/-- Whether the rule wants every section gone. -/
def isClearing (rule : Rule) : Bool :=
  rule.previousResult && rule.config.action = .remove

def holds (rule : Rule) (channels : Channels) : Bool :=
  Condition.allHold rule.config.conditions channels

/-- Takes in a result, and gives the edge if it differs from the one before. -/
def observe (rule : Rule) (result : Bool) (tick : UInt64) :
    Option RuleEdge × Rule :=
  if result = rule.previousResult then (none, rule)
  else
    (some ⟨rule.id, result, rule.config.action, rule.config.spec, tick⟩,
      { rule with previousResult := result, lastFired := some tick })

/-- Evaluates the conditions and takes in the result. -/
def step (rule : Rule) (channels : Channels) (tick : UInt64) :
    Option RuleEdge × Rule :=
  rule.observe (rule.holds channels) tick

end Rule

end CircuitSections
