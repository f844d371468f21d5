import CircuitSections.Circuit.Entity
import CircuitSections.Rule.Basic

/-!
# Combinators

A combinator holds rules and remembers the wiring that it last saw.  From its
rules follows the set of sections that it desires on every target wired to it.
-/

namespace CircuitSections

/-- A combinator with its rules and what it remembers. -/
structure Combinator where
  id : CombinatorId
  rules : List Rule
  /-- The wired targets, unless they have to be read again. -/
  wired : Option (List TargetId)
  /-- The targets of the latest reconciliation. -/
  reconciled : TargetSet
  /-- Whether the rules were set since the latest reconciliation. -/
  rulesChanged : Bool
  /-- The channels as the latest pass read them. -/
  channels : Channels

/-- A combinator may have as many rules as the limits allow. -/
def Limits.checkRuleCount (limits : Limits) (count : Nat) :
    Except ValidationError Unit :=
  let max := limits.rulesPerCombinator.toNat
  if max < count then .error (.tooManyRules max count) else .ok ()

namespace Combinator

def empty (id : CombinatorId) : Combinator :=
  ⟨id, [], none, .empty, false, .empty⟩

/-- A combinator with rules that were accepted before, as after a load. -/
def withRules (id : CombinatorId) (rules : List Rule) (limits : Limits) :
    Except ValidationError Combinator := do
  limits.checkRuleCount rules.length
  return { empty id with rules }

def snapshots (combinator : Combinator) : List RuleSnapshot :=
  combinator.rules.map Rule.snapshot

/-- Drops the wiring, so that the next pass reads it again. -/
def forgetWiring (combinator : Combinator) : Combinator :=
  { combinator with wired := none }

/-! ### Setting rules -/

/-- The first rule with a configuration, and the rules without it. -/
def takeMatching (config : RuleConfig) : List Rule → Option (Rule × List Rule)
  | [] => none
  | rule :: rest =>
    if rule.config.same config then some (rule, rest)
    else (takeMatching config rest).map fun (found, others) =>
      (found, rule :: others)

/-- One rule for each configuration: the first old rule that has it and is not
yet taken, or else a new one. -/
def renew (limits : Limits) :
    List Rule → List RuleConfig → RuleIdSupply →
      Except ValidationError (List Rule × RuleIdSupply)
  | _, [], ids => .ok ([], ids)
  | old, config :: configs, ids =>
    match takeMatching config old with
    | some (kept, others) => do
      let (rules, ids) ← renew limits others configs ids
      return (kept :: rules, ids)
    | none => do
      let (created, ids) ← Rule.create config limits ids
      let (rules, ids) ← renew limits old configs ids
      return (created :: rules, ids)

def validateConfigs (limits : Limits) : List RuleConfig →
    Except ValidationError Unit
  | [] => .ok ()
  | config :: configs => do
    config.validate limits
    validateConfigs limits configs

/-- Replaces the rules.  A configuration that was there before keeps its rule,
and the next pass reconciles even if no rule fires. -/
def setRules (combinator : Combinator) (configs : List RuleConfig)
    (limits : Limits) (ids : RuleIdSupply) :
    Except ValidationError (Combinator × RuleIdSupply) := do
  limits.checkRuleCount configs.length
  validateConfigs limits configs
  let (rules, ids) ← renew limits combinator.rules configs ids
  return ({ combinator with rules, rulesChanged := true }, ids)

/-! ### What the rules ask for -/

/-- The sections that the combinator desires on its targets: none while a
clearing rule holds, and else those of the injecting rules. -/
def desired (combinator : Combinator) : SpecSet :=
  if combinator.rules.any Rule.isClearing then .empty
  else .ofList ((combinator.rules.filter Rule.isInjecting).map fun rule =>
    rule.config.spec)

end Combinator

def Operand.reads (operand : Operand) (channel : Channel) : Bool :=
  match operand with
  | .constant _ => false
  | .signal operand => operand.channels.reads channel

/-- Whether a condition depends on a channel. -/
def Condition.reads (condition : Condition) (channel : Channel) : Bool :=
  condition.left.channels.reads channel || condition.right.reads channel

/-- Whether some condition depends on a channel. -/
def Combinator.reads (combinator : Combinator) (channel : Channel) : Bool :=
  combinator.rules.any fun rule => rule.config.conditions.any fun condition =>
    condition.reads channel

end CircuitSections
