import CircuitSections.Proofs.Combinator.Pass
import CircuitSections.Proofs.Engine.Operations

/-!
# Runs

A world is an engine and the host that it works on, together with what was told
of them so far.  A run performs operations, of the engine and of the host in any
order, one after the other.  A chronicle says how hosts of a kind change and
what is told of an operation.  A round over all combinators is the same as their
passes in turn (`perform_evaluateAll`), so whatever holds of passes holds inside
a round.
-/

namespace CircuitSections

/-- An operation of the engine, or a change of its host. -/
inductive Operation (δ : Type)
  | add (id : CombinatorId) (configs : List RuleConfig)
  | addRestored (id : CombinatorId) (snapshots : List RuleSnapshot)
  | setRules (id : CombinatorId) (configs : List RuleConfig)
  | noteWiringChange (id : CombinatorId)
  | noteDestroyed (target : TargetId)
  | restoreLedger (entries : List TrackedSection)
  | evaluate (id : CombinatorId) (tick : UInt64)
  | evaluateAll (tick : UInt64)
  | remove (id : CombinatorId) (tick : UInt64)
  | change (change : δ)

/-- How hosts of a kind change, and what is told of operations on them. -/
class Chronicle (σ ε : Type) (δ : outParam Type) where
  changed : δ → σ → σ
  /-- What is told of an operation, unless it is refused.  A round is told as
  the passes that it consists of. -/
  told : Engine → σ → Operation δ → List ε

/-- An engine and its host with their story. -/
structure World (σ ε : Type) where
  engine : Engine
  host : σ
  /-- What happened, the earliest first. -/
  log : List ε
  /-- The reports of passes, the earliest first. -/
  reports : List PassReport

namespace World

variable {σ ε δ : Type}

/-- An engine under the given limits that nothing happened to. -/
def opened (limits : Limits) (ids : RuleIdSupply) (host : σ) : World σ ε :=
  ⟨{ Engine.empty ids with limits }, host, [], []⟩

variable [Chronicle σ ε δ]

/-- What is told after an operation that may have been refused. -/
def toldOf {α : Type} (world : World σ ε) (operation : Operation δ) :
    Except EngineError α → List ε
  | .ok _ => world.log ++ Chronicle.told world.engine world.host operation
  | .error _ => world.log

variable [ChannelReader σ] [WiringReader σ] [SectionEditor σ]

/-- One pass of a combinator, which may be one of a round. -/
def turn (tick : UInt64) (world : World σ ε) (id : CombinatorId) : World σ ε :=
  match world.engine.evaluate id tick world.host with
  | (.error _, engine, host) => { world with engine, host }
  | (.ok report, engine, host) =>
    { engine
      host
      log :=
        world.log ++ Chronicle.told world.engine world.host (.evaluate id tick)
      reports := world.reports ++ [report] }

/-- Passes of several combinators in turn. -/
def turns (tick : UInt64) (world : World σ ε)
    (ids : List CombinatorId) : World σ ε :=
  ids.foldl (turn tick) world

/-- The world after an operation. -/
def perform (world : World σ ε) (operation : Operation δ) : World σ ε :=
  match operation with
  | .add id configs =>
    let (answer, engine) := world.engine.add id configs
    { world with engine, log := world.toldOf operation answer }
  | .addRestored id snapshots =>
    let (answer, engine) := world.engine.addRestored id snapshots
    { world with engine, log := world.toldOf operation answer }
  | .setRules id configs =>
    let (answer, engine) := world.engine.setRules id configs
    { world with engine, log := world.toldOf operation answer }
  | .noteWiringChange id =>
    let (answer, engine) := world.engine.noteWiringChange id
    { world with engine, log := world.toldOf operation answer }
  | .noteDestroyed target =>
    { world with
      engine := (world.engine.noteDestroyed target).2
      log := world.log ++ Chronicle.told world.engine world.host operation }
  | .restoreLedger entries =>
    { world with
      engine := world.engine.restoreLedger entries
      log := world.log ++ Chronicle.told world.engine world.host operation }
  | .evaluate id tick => world.turn tick id
  | .evaluateAll tick =>
    let (reports, engine, host) := world.engine.evaluateAll tick world.host
    { engine
      host
      log := (world.turns tick world.engine.combinatorIds).log
      reports := world.reports ++ reports }
  | .remove id tick =>
    let (answer, engine, host) := world.engine.remove id tick world.host
    { world with engine, host, log := world.toldOf operation answer }
  | .change change =>
    { world with
      host := Chronicle.changed ε change world.host
      log := world.log ++ Chronicle.told world.engine world.host operation }

/-- The world after operations one after the other. -/
def run (world : World σ ε) (operations : List (Operation δ)) : World σ ε :=
  operations.foldl perform world

@[simp]
theorem run_nil (world : World σ ε) : world.run [] = world := rfl

theorem run_append (world : World σ ε) (earlier later : List (Operation δ)) :
    world.run (earlier ++ later) = (world.run earlier).run later :=
  List.foldl_append

@[simp]
theorem run_concat (world : World σ ε) (operations : List (Operation δ))
    (operation : Operation δ) :
    world.run (operations ++ [operation]) =
      (world.run operations).perform operation := by
  simp [run]

omit [Chronicle σ ε δ] [ChannelReader σ] [WiringReader σ] [SectionEditor σ] in
/-- A moment before an operation of a longer run is the last one, or one
before. -/
theorem split_concat {operations earlier later : List (Operation δ)}
    {last operation : Operation δ}
    (split : operations ++ [last] = earlier ++ operation :: later) :
    (operations = earlier ∧ last = operation) ∨
      ∃ rest, operations = earlier ++ operation :: rest := by
  rcases List.eq_nil_or_concat later with rfl | ⟨rest, final, rfl⟩
  · obtain ⟨same, tail⟩ := List.append_inj' split rfl
    exact .inl ⟨same, List.head_eq_of_cons_eq tail⟩
  · rw [List.concat_eq_append, ← List.cons_append, ← List.append_assoc] at split
    exact .inr ⟨rest, (List.append_inj' split rfl).1⟩

theorem turns_eq_run (world : World σ ε) (tick : UInt64)
    (ids : List CombinatorId) :
    world.turns tick ids = world.run (ids.map fun id => .evaluate id tick) := by
  induction ids generalizing world with
  | nil => rfl
  | cons id rest induction => exact induction (world.turn tick id)

/-- What each pass keeps is kept by passes in turn. -/
theorem turns_induction (Kept : World σ ε → Prop) {world : World σ ε}
    {tick : UInt64} (start : Kept world)
    (turn : ∀ between id, Kept between → Kept (between.turn tick id))
    (ids : List CombinatorId) : Kept (world.turns tick ids) := by
  induction ids generalizing world with
  | nil => exact start
  | cons id rest induction => exact induction (turn world id start)

/-- What each operation keeps is kept by a run. -/
theorem run_induction (Kept : World σ ε → Prop) {world : World σ ε}
    (start : Kept world)
    (perform : ∀ between operation, Kept between →
      Kept (between.perform operation))
    (operations : List (Operation δ)) : Kept (world.run operations) := by
  induction operations generalizing world with
  | nil => exact start
  | cons operation rest induction =>
      exact induction (perform world operation start)

end World

/-! ### Rounds -/

theorem Combinator.pass_id {σ : Type} [ChannelReader σ] [WiringReader σ]
    [SectionEditor σ] (combinator : Combinator) (tick : UInt64)
    (ledger : Ledger) (host : σ) :
    (combinator.pass tick ledger host).2.1.id = combinator.id := by
  obtain ⟨_, left⟩ := combinator.pass_leaves tick ledger host
  rw [left]
  rfl

namespace World

variable {σ ε δ : Type} [Chronicle σ ε δ] [ChannelReader σ] [WiringReader σ]
  [SectionEditor σ]

theorem turn_of_none {world : World σ ε} {id : CombinatorId} (tick : UInt64)
    (absent : world.engine.combinator? id = none) :
    world.turn tick id = world := by
  simp [turn, Engine.evaluate, absent]

theorem turn_of_held {world : World σ ε} {id : CombinatorId}
    {combinator : Combinator} (tick : UInt64)
    (held : world.engine.combinator? id = some combinator) :
    world.turn tick id =
      let (report, after, ledger, host) :=
        combinator.pass tick world.engine.ledger world.host
      { engine := { world.engine.putCombinator after with ledger }
        host
        log := world.log ++ Chronicle.told world.engine world.host
          (.evaluate id tick)
        reports := world.reports ++ [report] } := by
  simp only [turn, Engine.evaluate_of_some held]

private theorem turns_eq_evaluateEach (tick : UInt64)
    (combinators : List Combinator) (world : World σ ε)
    (held : ∀ combinator ∈ combinators,
      world.engine.combinator? combinator.id = some combinator)
    (distinct : combinators.Pairwise fun a b => a.id ≠ b.id) :
    let (reports, engine, host) :=
      Engine.evaluateEach tick combinators world.engine world.host
    let after := world.turns tick (combinators.map Combinator.id)
    after = ⟨engine, host, after.log, world.reports ++ reports⟩ := by
  induction combinators generalizing world with
  | nil => simp [Engine.evaluateEach, turns]
  | cons combinator rest induction =>
      obtain ⟨apart, restDistinct⟩ := List.pairwise_cons.mp distinct
      have turned := turn_of_held tick (held combinator List.mem_cons_self)
      have restHeld : ∀ other ∈ rest,
          (world.turn tick combinator.id).engine.combinator? other.id =
            some other := by
        intro other member
        rw [turned]
        have kept := held other (List.mem_cons_of_mem combinator member)
        show ((world.engine.putCombinator _).combinator? other.id) = some other
        rw [Engine.combinator?_putCombinator, Combinator.pass_id,
          if_neg (apart other member), kept]
      have later :=
        induction (world.turn tick combinator.id) restHeld restDistinct
      rw [turned] at later
      simp only [Engine.evaluateEach, Engine.passOf, turns, List.map_cons,
        List.foldl_cons] at later ⊢
      rw [turned, later]
      simp

/-- A round is the passes of all combinators in turn. -/
theorem perform_evaluateAll (world : World σ ε) (tick : UInt64) :
    world.perform (.evaluateAll tick) =
      world.turns tick world.engine.combinatorIds := by
  have round := turns_eq_evaluateEach tick world.engine.combinators.toList world
    (fun combinator member => Ascending.find?_key member)
    world.engine.combinators.keys_apart
  rw [Engine.combinatorIds, round]
  rfl

end World

end CircuitSections
