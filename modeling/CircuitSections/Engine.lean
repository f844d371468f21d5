import CircuitSections.Combinator.Pass

/-!
# The engine

The engine holds every combinator and the ledger of their sections, and runs
passes one combinator at a time.  An operation that fails leaves the engine as
it was and asks the host nothing.
-/

namespace CircuitSections

/-- The limits, the ledger, the combinators and the supply of rule ids. -/
structure Engine where
  limits : Limits
  ledger : Ledger
  combinators : Ascending Combinator.id
  ids : RuleIdSupply

/-- Limits that can be worked with allow a rule and a condition. -/
def Limits.validate (limits : Limits) : Except ValidationError Unit :=
  if limits.rulesPerCombinator = 0 then .error .noRulesAllowed
  else if limits.conditionsPerRule = 0 then .error .noConditionsAllowed
  else .ok ()

namespace Engine

/-- A validation result as an engine result. -/
def accept {α : Type} : Except ValidationError α → Except EngineError α
  | .ok value => .ok value
  | .error cause => .error (.validation cause)

def empty (ids : RuleIdSupply) : Engine := ⟨.default, .empty, .empty, ids⟩

/-- An engine without combinators, under limits that can be worked with. -/
def withLimits (limits : Limits) (ids : RuleIdSupply) :
    Except EngineError Engine := do
  accept limits.validate
  return { empty ids with limits }

def combinator? (engine : Engine) (id : CombinatorId) : Option Combinator :=
  engine.combinators.find? id

def combinatorIds (engine : Engine) : List CombinatorId :=
  engine.combinators.toList.map Combinator.id

/-- Puts the ledger of saved entries in place of the engine's own. -/
def restoreLedger (engine : Engine) (entries : List TrackedSection) : Engine :=
  { engine with ledger := .ofEntries entries }

def putCombinator (engine : Engine) (combinator : Combinator) : Engine :=
  { engine with combinators := engine.combinators.put combinator }

def add (engine : Engine) (id : CombinatorId) (configs : List RuleConfig) :
    Except EngineError Unit × Engine :=
  if engine.combinators.contains
    id then (.error (.duplicateCombinator id), engine)
  else
    match (Combinator.empty id).setRules configs engine.limits engine.ids with
    | .error cause => (.error (.validation cause), engine)
    | .ok (combinator, ids) =>
      (.ok (), { engine.putCombinator combinator with ids })

/-- The rules of saved forms, if the limits accept all of them. -/
def restoreRules (limits : Limits) (snapshots : List RuleSnapshot) :
    Except ValidationError (List Rule) :=
  snapshots.mapM fun snapshot => Rule.restore snapshot limits

/-- Adds a combinator with saved rules, which keep what they remembered. -/
def addRestored (engine : Engine) (id : CombinatorId)
    (snapshots : List RuleSnapshot) :
    Except EngineError Unit × Engine :=
  if engine.combinators.contains
    id then (.error (.duplicateCombinator id), engine)
  else
    match restoreRules engine.limits snapshots >>= fun rules =>
        Combinator.withRules id rules engine.limits with
    | .error cause => (.error (.validation cause), engine)
    | .ok combinator => (.ok (), engine.putCombinator combinator)

def snapshots (engine : Engine) (id : CombinatorId) :
    Except EngineError (List RuleSnapshot) :=
  match engine.combinator? id with
  | none => .error (.combinatorNotFound id)
  | some combinator => .ok combinator.snapshots

def setRules (engine : Engine) (id : CombinatorId) (configs : List RuleConfig) :
    Except EngineError Unit × Engine :=
  match engine.combinator? id with
  | none => (.error (.combinatorNotFound id), engine)
  | some combinator =>
    match combinator.setRules configs engine.limits engine.ids with
    | .error cause => (.error (.validation cause), engine)
    | .ok (combinator, ids) =>
      (.ok (), { engine.putCombinator combinator with ids })

/-- Makes the next pass of a combinator read its wiring again. -/
def noteWiringChange (engine : Engine) (id : CombinatorId) :
    Except EngineError Unit × Engine :=
  match engine.combinator? id with
  | none => (.error (.combinatorNotFound id), engine)
  | some combinator => (.ok (), engine.putCombinator combinator.forgetWiring)

/-- Drops what is tracked on a destroyed target, and makes every combinator read
its wiring again.  Tells how much was dropped. -/
def noteDestroyed (engine : Engine) (target : TargetId) : Nat × Engine :=
  let (dropped, ledger) := engine.ledger.forgetTarget target
  (dropped.length,
    { engine with
      ledger
      combinators := engine.combinators.mapKeeping Combinator.forgetWiring
        fun _ => rfl })

variable {σ : Type}

/-- Takes a combinator out and removes its sections. -/
def remove [SectionEditor σ] (engine : Engine) (id : CombinatorId)
    (tick : UInt64) (host : σ) :
    Except EngineError ReconcileReport × Engine × σ :=
  match engine.combinator? id with
  | none => (.error (.combinatorNotFound id), engine, host)
  | some combinator =>
    let (report, _, ledger, host) := combinator.tearDown tick engine.ledger host
    (.ok report, { engine with
      ledger, combinators := engine.combinators.erase id }, host)

variable [ChannelReader σ] [WiringReader σ] [SectionEditor σ]

/-- Runs one pass of a combinator that the engine holds. -/
def passOf (engine : Engine) (combinator : Combinator)
    (tick : UInt64) (host : σ) :
    PassReport × Engine × σ :=
  let (report, combinator, ledger, host) :=
    combinator.pass tick engine.ledger host
  (report, { engine.putCombinator combinator with ledger }, host)

def evaluate (engine : Engine) (id : CombinatorId) (tick : UInt64) (host : σ) :
    Except EngineError PassReport × Engine × σ :=
  match engine.combinator? id with
  | none => (.error (.combinatorNotFound id), engine, host)
  | some combinator =>
    let (report, engine, host) := engine.passOf combinator tick host
    (.ok report, engine, host)

/-- Runs one pass of each of the given combinators, in order. -/
def evaluateEach (tick : UInt64) :
    List Combinator → Engine → σ → List PassReport × Engine × σ
  | [], engine, host => ([], engine, host)
  | combinator :: rest, engine, host =>
    let (report, engine, host) := engine.passOf combinator tick host
    let (reports, engine, host) := evaluateEach tick rest engine host
    (report :: reports, engine, host)

/-- Runs one pass of every combinator, in ascending order of their numbers. -/
def evaluateAll (engine : Engine) (tick : UInt64) (host : σ) :
    List PassReport × Engine × σ :=
  evaluateEach tick engine.combinators.toList engine host

end Engine

end CircuitSections
