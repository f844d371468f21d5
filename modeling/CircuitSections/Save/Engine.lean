import CircuitSections.Engine
import CircuitSections.Save.Rule

/-!
# Saving and loading an engine

A save holds the entries of the ledger and the rules of every combinator with
what they remember.  Wiring and channels are read again after a load.
-/

namespace CircuitSections

/-- The texts of a saved engine. -/
structure EngineSave where
  ledger : String
  /-- The rules of each combinator, in ascending order of their numbers. -/
  rules : List (CombinatorId × String)

namespace Engine

/-- The texts under which an engine is saved. -/
def saved (engine : Engine) : EngineSave :=
  ⟨saveText engine.ledger.entries,
    engine.combinators.toList.map fun combinator =>
      (combinator.id, saveText combinator.snapshots)⟩

/-- Adds combinators from the texts of their rules.  It stops at the first text
that cannot be read or is refused. -/
def addSaved : Engine → List (CombinatorId × String) → Option Engine
  | engine, [] => some engine
  | engine, (id, text) :: rest => do
    let snapshots ← loadText? text
    match engine.addRestored id snapshots with
    | (.ok _, engine) => engine.addSaved rest
    | (.error _, _) => none

/-- The engine that saved texts hold, under the given limits. -/
def ofSaved? (texts : EngineSave) (limits : Limits) (ids : RuleIdSupply) :
    Option Engine := do
  let entries ← loadText? texts.ledger
  ({ empty ids with limits }.restoreLedger entries).addSaved texts.rules

end Engine

end CircuitSections
