import CircuitSections.Proofs.Run.Scene
import CircuitSections.Proofs.Run.World

/-!
# Runs over the host in memory

Of the host in memory it is told which sections were put on it, by whom, and
which targets were cleared; of the engine, which rules were set and which passes
ran.
-/

namespace CircuitSections

/-- A change of the host that the engine has no part in. -/
inductive HostChange
  | addTarget (target : TargetId)
  | addPlainTarget (target : TargetId)
  | destroyTarget (target : TargetId)
  | connect (combinator : CombinatorId) (target : TargetId)
  | disconnect (combinator : CombinatorId) (target : TargetId)
  | setChannel (combinator : CombinatorId) (channel : Channel)
      (signals : SignalStore)
  | setSignal (combinator : CombinatorId) (channel : Channel) (signal : Signal)
      (count : Int32)
  | reject (target : TargetId) (reason : String)
  | accept (target : TargetId)
  | addManualSection (target : TargetId) (spec : SectionSpec)

namespace HostChange

/-- The host after the change. -/
def apply (host : MemoryHost) : HostChange → MemoryHost
  | .addTarget target => host.addTarget target
  | .addPlainTarget target => host.addPlainTarget target
  | .destroyTarget target => host.destroyTarget target
  | .connect combinator target => host.connect combinator target
  | .disconnect combinator target => host.disconnect combinator target
  | .setChannel combinator channel signals =>
    host.setChannel combinator channel signals
  | .setSignal combinator channel signal count =>
    host.setSignal combinator channel signal count
  | .reject target reason => host.reject target reason
  | .accept target => host.accept target
  | .addManualSection target spec => (host.addManualSection target spec).2

/-- What is remembered of the change. -/
def events (host : MemoryHost) : HostChange → List Event
  | .addTarget target => [.cleared target]
  | .addPlainTarget target => [.cleared target]
  | .destroyTarget target => [.cleared target]
  | .addManualSection target spec =>
    match (host.addManualSection target spec).1 with
    | some handle => [.created .hand ⟨target, handle, spec⟩]
    | none => []
  | _ => []

end HostChange

/-- The sections that a pass of a combinator adds to the host. -/
def Engine.addedBy (engine : Engine) (host : MemoryHost) (id : CombinatorId)
    (tick : UInt64) : List HostSection :=
  (engine.evaluate id tick (Journal.opened host)).2.2.added

/-- What is remembered of an operation. -/
def Event.told (engine : Engine) (host : MemoryHost) :
    Operation HostChange → List Event
  | .add id _ | .setRules id _ => [.ruled id]
  | .evaluate id tick =>
    (engine.addedBy host id tick).map (.created (.pass id)) ++ [.passed id]
  | .change change => change.events host
  | _ => []

instance : Chronicle MemoryHost Event HostChange where
  changed change host := change.apply host
  told := Event.told

/-- An engine and its host in memory. -/
abbrev MemoryWorld := World MemoryHost Event

namespace World

/-- An engine under the given limits that nothing happened to, over an empty
host. -/
def start (limits : Limits) (ids : RuleIdSupply) : MemoryWorld :=
  opened limits ids .empty

/-- The ledger and the host with their story. -/
def scene (world : MemoryWorld) : Scene :=
  ⟨world.engine.ledger, world.host, world.log,
    world.reports.flatMap PassReport.orphaned⟩

section Silent

variable (world : MemoryWorld)

theorem toldOf_of_silent {α : Type} {operation : Operation HostChange}
    (silent : Event.told world.engine world.host operation = [])
    (answer : Except EngineError α) : world.toldOf operation answer =
      world.log := by
  cases answer with
  | error cause => rfl
  | ok value =>
      show world.log ++ Event.told world.engine world.host operation = world.log
      rw [silent, List.append_nil]

theorem perform_addRestored (id : CombinatorId)
    (snapshots : List RuleSnapshot) :
    world.perform (.addRestored id snapshots) =
      { world with engine := (world.engine.addRestored id snapshots).2 } := by
  simp only [perform]
  rw [toldOf_of_silent world]
  rfl

theorem perform_noteWiringChange (id : CombinatorId) :
    world.perform (.noteWiringChange id) =
      { world with engine := (world.engine.noteWiringChange id).2 } := by
  simp only [perform]
  rw [toldOf_of_silent world]
  rfl

theorem perform_noteDestroyed (target : TargetId) :
    world.perform (.noteDestroyed target) =
      { world with engine := (world.engine.noteDestroyed target).2 } := by
  simp only [perform, Chronicle.told, Event.told, List.append_nil]

theorem perform_restoreLedger (entries : List TrackedSection) :
    world.perform (.restoreLedger entries) =
      { world with engine := world.engine.restoreLedger entries } := by
  simp only [perform, Chronicle.told, Event.told, List.append_nil]

theorem perform_remove (id : CombinatorId) (tick : UInt64) :
    world.perform (.remove id tick) =
      let (_, engine, host) := world.engine.remove id tick world.host
      { world with engine, host } := by
  simp only [perform]
  rw [toldOf_of_silent world]
  rfl

end Silent

theorem turn_of_some {world : MemoryWorld} {id : CombinatorId}
    {combinator : Combinator} (tick : UInt64)
    (found : world.engine.combinator? id = some combinator) :
    world.turn tick id =
      let (report, after, ledger, host) :=
        combinator.pass tick world.engine.ledger world.host
      { engine := { world.engine.putCombinator after with ledger }
        host
        log := world.log ++
          (world.engine.addedBy world.host id tick).map
            (.created (.pass id)) ++ [.passed id]
        reports := world.reports ++ [report] } := by
  rw [turn_of_held tick found]
  simp only [Chronicle.told, Event.told, List.append_assoc]

/-! ### A run to try statements on -/

/-- A section with one of iron. -/
def iron : SectionSpec := ⟨"iron", .ofParts false (1023 * Nat.pow 2 52)⟩

/-- A rule for iron that holds while the wires carry nothing. -/
def ironRule : RuleConfig :=
  ⟨[.ofComparison (.ofSelector .everything) .equal (.constant 0)],
    .inject, iron⟩

/-- A combinator puts iron on the one target that is wired to it. -/
def ironRun : List (Operation HostChange) :=
  [.change (.addTarget ⟨1⟩), .change (.connect ⟨7⟩ ⟨1⟩), .add ⟨7⟩ [ironRule],
    .evaluate ⟨7⟩ 5]

end World

end CircuitSections
