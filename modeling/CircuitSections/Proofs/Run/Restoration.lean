import CircuitSections.Host.Recorded
import CircuitSections.Proofs.Run.Consistency

/-!
# Settled worlds

A world is settled when every combinator had a pass since it was given rules and
its next pass would find nothing to do.  To save the engine of such a world and
load it again is not seen by anybody: the first round of the loaded engine edits
nothing, and leaves the ledger and all combinators as the saved engine has them
after a round of its own.
-/

namespace CircuitSections

/-! ### Questions -/

/-- Whether the call asks for an edit. -/
def HostCall.isEdit : HostCall → Bool
  | .add _ _ => true
  | .remove _ _ => true
  | _ => false

/-- The host as it was, and no call that asked for an edit. -/
def Recorded.OnlyAsked (host : MemoryHost) (state : Recorded MemoryHost) :
    Prop :=
  state.host = host ∧ ∀ call ∈ state.calls, call.isEdit = false

namespace Recorded.OnlyAsked

variable {host : MemoryHost} {state : Recorded MemoryHost}

theorem ask {α : Type} (asked : OnlyAsked host state) (call : HostCall)
    (question : call.isEdit = false) (answer : MemoryHost → α) :
    ∃ next, OnlyAsked host next ∧
      Recorded.ask call (fun host => (answer host, host)) state =
        (answer host, next) := by
  obtain ⟨same, questions⟩ := asked
  refine ⟨⟨host, state.calls ++ [call]⟩, ⟨rfl, ?_⟩, ?_⟩
  · intro other member
    rcases List.mem_append.mp member with earlier | last
    · exact questions other earlier
    · rw [List.mem_singleton.mp last]
      exact question
  · simp [Recorded.ask, same]

theorem answers (host : MemoryHost) : Answers (OnlyAsked host) host where
  readChannel id channel {_} asked :=
    asked.ask (.channel id channel) rfl fun host => host.channels id channel
  wiredTargets id {_} asked := asked.ask (.wiring id) rfl fun host =>
    host.wiring id
  targetExists target {_} asked :=
    asked.ask (.exists target) rfl fun host => host.targetExists target
  supportsSections target {_} asked :=
    asked.ask (.supports target) rfl fun host => host.supportsSections target

end Recorded.OnlyAsked

/-! ### Rounds that find nothing to do -/

/-- Every combinator of the world had a pass since it was given rules, and would
find nothing to do. -/
def World.Settled (world : MemoryWorld) : Prop :=
  ∀ id combinator, world.engine.combinator? id = some combinator →
    Since (.passed id) (.ruled id) world.log ∧
      combinator.Settled world.engine.ledger world.host

namespace World

theorem settled_iff {world : MemoryWorld} : world.Settled ↔
    ∀ combinator ∈ world.engine.combinators.toList,
      Since (.passed combinator.id) (.ruled combinator.id) world.log ∧
        combinator.Settled world.engine.ledger world.host := by
  constructor
  · intro settled combinator member
    exact settled combinator.id combinator (Ascending.find?_key member)
  · intro settled id combinator found
    rw [← Engine.combinator?_id found]
    exact settled combinator (Ascending.find?_eq_some_iff.mp found).1

instance (world : MemoryWorld) : Decidable world.Settled :=
  decidable_of_iff _ settled_iff.symm

variable {limits : Limits} {ids : RuleIdSupply}
  {operations : List (Operation HostChange)}

theorem Settled.held {world : MemoryWorld} (settled : world.Settled)
    (consistent : world.Consistent limits) {combinator : Combinator}
    (member : combinator ∈ world.engine.combinators.toList) :
    combinator.Settled world.engine.ledger world.host ∧
      combinator.reconciled =
        TargetSet.ofList (world.host.wiring combinator.id) ∧
      combinator.rulesChanged = false := by
  obtain ⟨served, done⟩ := settled_iff.mp settled combinator member
  have remembered :=
    consistent.held combinator.id combinator (Ascending.find?_key member)
  exact ⟨done, remembered.known _ done.wired, remembered.served served⟩

/-- In a round of a settled world, combinators do no more than to read their
channels again. -/
theorem Settled.evaluateAll {world : MemoryWorld} (settled : world.Settled)
    (consistent : world.Consistent limits) (tick : UInt64) :
    ∃ reports, world.engine.evaluateAll tick world.host =
      (reports,
        { world.engine with
          combinators :=
            world.engine.combinators.mapKeeping (Combinator.reread world.host)
              fun _ => rfl },
        world.host) := by
  have unchanged : world.engine.combinators =
      world.engine.combinators.mapKeeping id fun _ => rfl := by
    apply Ascending.ext_mem
    simp [Ascending.mem_mapKeeping]
  have idle : ∀ combinator ∈ world.engine.combinators.toList,
      ∀ {state : MemoryHost}, state = world.host →
        ∃ report next, next = world.host ∧ report.combinator = combinator.id ∧
          report.edges = [] ∧ combinator.pass tick world.engine.ledger state =
            (report, combinator.reread world.host,
              world.engine.ledger, next) := by
    intro combinator member state inside
    obtain ⟨done, reconciled, served⟩ := settled.held consistent member
    exact done.pass reconciled served world.host.answers inside tick
  obtain ⟨reports, host, rfl, _, _, ran⟩ := Engine.evaluateAll_idle id
    (Combinator.reread world.host) (fun _ => rfl) (fun _ => rfl) world.engine
      tick unchanged idle
    rfl
  exact ⟨reports, ran⟩

/-- In a settled world that any run reaches, the engine can be saved and loaded
without a trace.  Every combinator is accepted again, in whichever order they
are added; the first round fires no edge and asks for no edit; and then the
ledger and all combinators are what they are when the engine itself has a round,
in which combinators do no more than to read their channels again. -/
theorem restored_round (settled : ((start limits ids).run operations).Settled)
    {order : List CombinatorId}
    (all : order.Perm ((start limits ids).run operations).engine.combinatorIds)
    (fresh : RuleIdSupply) (tick : UInt64) :
    let world := (start limits ids).run operations
    let (answers, restored) := world.engine.restored order fresh
    let (reports, after, asked) :=
      restored.evaluateAll tick (Recorded.mk world.host [])
    let (_, continued, host) := world.engine.evaluateAll tick world.host
    (answers = order.map fun _ => .ok ()) ∧
    reports.map PassReport.combinator = world.engine.combinatorIds ∧
    (∀ report ∈ reports, report.edges = []) ∧
    (∀ call ∈ asked.calls, call.isEdit = false) ∧
    asked.host = world.host ∧ host = world.host ∧
    after.ledger.entries = world.engine.ledger.entries ∧
    continued.ledger = world.engine.ledger ∧
    after.combinators = continued.combinators ∧
    continued.combinators =
      world.engine.combinators.mapKeeping (Combinator.reread world.host)
        fun _ => rfl := by
  intro world
  have consistent : world.Consistent limits :=
    consistent_run limits ids operations
  change world.Settled at settled
  have valid : ∀ combinator ∈ world.engine.combinators.toList,
      combinator.Valid world.engine.limits := by
    intro combinator member
    rw [consistent.sameLimits]
    exact (consistent.held combinator.id combinator
      (Ascending.find?_key member)).valid
  let engine : Engine :=
    { limits := world.engine.limits
      ledger := .ofEntries world.engine.ledger.entries
      combinators :=
        world.engine.combinators.mapKeeping Combinator.bare fun _ => rfl
      ids := fresh }
  have restored : world.engine.restored order fresh =
      (order.map fun _ => .ok (), engine) :=
    Engine.restored_eq valid all fresh
  have loaded := Ledger.entries_ofEntries world.engine.ledger
  have idle : ∀ combinator ∈ world.engine.combinators.toList,
      ∀ {state : Recorded MemoryHost}, state.OnlyAsked world.host →
        ∃ report next, Recorded.OnlyAsked world.host next ∧
          report.combinator = combinator.id ∧ report.edges = [] ∧
          combinator.bare.pass tick engine.ledger state =
            (report, combinator.reread world.host, engine.ledger, next) := by
    intro combinator member state inside
    obtain ⟨done, reconciled, served⟩ := settled.held consistent member
    exact (done.of_entries loaded).pass_bare reconciled served
      (Recorded.OnlyAsked.answers world.host) inside tick
  have nothing : Recorded.OnlyAsked world.host ⟨world.host, []⟩ :=
    ⟨rfl, fun call member => absurd member List.not_mem_nil⟩
  obtain ⟨reports, asked, onlyAsked, named, still, ran⟩ :=
    Engine.evaluateAll_idle
      Combinator.bare (Combinator.reread world.host) (fun _ => rfl)
        (fun _ => rfl) engine tick rfl
      idle nothing
  obtain ⟨_, continued⟩ := settled.evaluateAll consistent tick
  rw [restored]
  simp only [ran, continued]
  exact ⟨trivial, named, still, onlyAsked.2, onlyAsked.1, trivial, loaded,
    trivial, trivial, trivial⟩

/-- The iron is on one target, another wired target is missing, and a second
combinator has no rules. -/
def settledRun : List (Operation HostChange) :=
  ironRun ++ [.change (.connect ⟨7⟩ ⟨2⟩), .noteWiringChange ⟨7⟩, .add ⟨8⟩ [],
    .evaluateAll 6]

theorem restored_round_settledRun :
    let world := (start .default ⟨0⟩).run settledRun
    let (answers, restored) := world.engine.restored [⟨8⟩, ⟨7⟩] ⟨0⟩
    let (reports, after, asked) :=
      restored.evaluateAll 9 (Recorded.mk world.host [])
    world.Settled ∧ answers = [.ok (), .ok ()] ∧
      reports.map PassReport.reconciled = [true, false] ∧
      (∀ call ∈ asked.calls, call.isEdit = false) ∧
      after.ledger.entries = [⟨⟨1⟩, iron, ⟨7⟩, ⟨0⟩, 5⟩] ∧
      after.combinators =
        (world.engine.evaluateAll 9 world.host).2.1.combinators := by
  have settled : ((start .default ⟨0⟩).run settledRun).Settled := by
    decide +kernel
  have order :
      [⟨8⟩, ⟨7⟩].Perm
        ((start .default ⟨0⟩).run settledRun).engine.combinatorIds := by
    decide +kernel
  have round := restored_round settled order ⟨0⟩ 9
  obtain ⟨answers, _, _, asked, _, _, entries, _, combinators, _⟩ := round
  have tracked : ((start .default ⟨0⟩).run settledRun).engine.ledger.entries =
      [⟨⟨1⟩, iron, ⟨7⟩, ⟨0⟩, 5⟩] := by decide +kernel
  exact ⟨settled, answers, by decide +kernel, asked,
    entries.trans tracked, combinators⟩

end World

end CircuitSections
