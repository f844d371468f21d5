import CircuitSections.Proofs.Combinator.Silence
import CircuitSections.Proofs.Combinator.Unread
import CircuitSections.Proofs.Run.Reach
import Mathlib.Data.List.Infix

/-!
# Silence after a pass

Once a combinator had a pass, further ones are silent until its channels carry
something else, its rules are set or its wiring is forgotten.  Passes of other
combinators, other ledgers and changes of targets and wires do not wake it.
-/

namespace CircuitSections

/-- The operation neither sets the rules of a combinator, nor makes it forget
its wiring, nor takes it out. -/
def Operation.Spares (id : CombinatorId) : Operation HostChange → Prop
  | .setRules other _ | .noteWiringChange other | .remove other _ => other ≠ id
  | .noteDestroyed _ => False
  | _ => True

theorem Engine.addRestored_of_held {engine : Engine} {id : CombinatorId}
    {combinator : Combinator} (held : engine.combinator? id = some combinator)
    (snapshots : List RuleSnapshot) :
    engine.addRestored id snapshots =
      (.error (.duplicateCombinator id), engine) := by
  have there : engine.combinators.contains id = true := by
    rw [Ascending.contains, show engine.combinators.find? id =
      some combinator from held]
    rfl
  rw [addRestored, if_pos there]

theorem Engine.combinator?_remove {σ : Type} [SectionEditor σ] (engine : Engine)
    {id other : CombinatorId} (apart : other ≠ id) (tick : UInt64) (host : σ) :
    (engine.remove other tick host).2.1.combinator? id =
      engine.combinator? id := by
  unfold remove
  split
  · rfl
  · show (engine.combinators.erase other).find? id = engine.combinators.find? id
    rw [Ascending.find?_erase, if_neg (by simpa using apart)]

namespace World

/-- The engine holds a combinator that is up to date and reads what it has read
before. -/
structure Silent (world : MemoryWorld) (id : CombinatorId)
    (combinator : Combinator) : Prop where
  held : world.engine.combinator? id = some combinator
  upToDate : combinator.UpToDate
  same : (combinator.readChannels world.host).1.channels = combinator.channels

namespace Silent

variable {world : MemoryWorld} {id : CombinatorId} {combinator : Combinator}

/-- Only what the channels of the combinator carry matters. -/
theorem of_held (silent : world.Silent id combinator) {later : MemoryWorld}
    (held : later.engine.combinator? id = some combinator)
    (channels : later.host.channelsOf id = world.host.channelsOf id) :
    later.Silent id combinator where
  held := held
  upToDate := silent.upToDate
  same := by
    have before := silent.same
    obtain rfl := Engine.combinator?_id held
    rw [Combinator.readChannels_eq] at before ⊢
    rw [channels]
    exact before

theorem pass (silent : world.Silent id combinator) (tick : UInt64) :
    combinator.pass tick world.engine.ledger world.host =
      (⟨id, tick, [], none, none⟩, combinator, world.engine.ledger,
        world.host) := by
  obtain rfl := Engine.combinator?_id silent.held
  rw [silent.upToDate.pass silent.same, Combinator.readChannels_eq]

theorem turn (silent : world.Silent id combinator) (tick : UInt64)
    (other : CombinatorId) :
    (world.turn tick other).Silent id combinator := by
  have channels : (world.turn tick other).host.channelsOf id =
      world.host.channelsOf id := by
    rw [MemoryHost.channelsOf, MemoryHost.channelsOf,
      (turn_frame world tick other).1]
  refine silent.of_held ?_ channels
  cases found : world.engine.combinator? other with
  | none =>
      rw [turn_of_none tick found]
      exact silent.held
  | some turned =>
      rw [turn_of_some tick found]
      show (world.engine.putCombinator _).combinator? id = some combinator
      rw [Engine.combinator?_putCombinator, Combinator.pass_id,
        Engine.combinator?_id found]
      by_cases same : other = id
      · subst same
        rw [silent.held] at found
        cases found
        rw [if_pos rfl, silent.pass]
      · rw [if_neg same, silent.held]

theorem turns (silent : world.Silent id combinator) (tick : UInt64)
    (ids : List CombinatorId) :
    (world.turns tick ids).Silent id combinator :=
  turns_induction (Silent · id combinator) silent
    (fun _ other between => between.turn tick other) ids

theorem held_put (silent : world.Silent id combinator) {put : Combinator}
    (other : put.id ≠ id) :
    (world.engine.putCombinator put).combinator? id = some combinator := by
  rw [Engine.combinator?_putCombinator, if_neg other, silent.held]

theorem held_perform (silent : world.Silent id combinator)
    {operation : Operation HostChange} (spares : operation.Spares id) :
    (world.perform operation).engine.combinator? id = some combinator := by
  cases operation with
  | add other configs =>
      simp only [perform]
      rcases world.engine.add_cases other configs with
        ⟨_, refused⟩ | ⟨put, ids, added, absent, named, _⟩
      · rw [refused]
        exact silent.held
      · rw [added]
        refine silent.held_put (fun same => ?_)
        rw [← named, same, silent.held] at absent
        cases absent
  | addRestored other snapshots =>
      simp only [perform]
      rcases world.engine.addRestored_cases other snapshots with
        ⟨_, refused⟩ | ⟨put, added, named, _⟩
      · rw [refused]
        exact silent.held
      · rw [added]
        refine silent.held_put (fun same => ?_)
        rw [← named, same, Engine.addRestored_of_held silent.held] at added
        cases added
  | setRules other configs =>
      simp only [perform]
      rcases world.engine.setRules_cases other configs with
        ⟨_, refused⟩ | ⟨old, put, ids, given, _, named, _⟩
      · rw [refused]
        exact silent.held
      · rw [given]
        exact silent.held_put (named ▸ spares)
  | noteWiringChange other =>
      simp only [perform]
      rcases world.engine.noteWiringChange_cases other with ⟨_, refused⟩ |
        ⟨put, there, forgot⟩
      · rw [refused]
        exact silent.held
      · rw [forgot]
        exact silent.held_put ((Engine.combinator?_id there).symm ▸ spares)
  | noteDestroyed target => exact spares.elim
  | restoreLedger entries => exact silent.held
  | evaluate other tick => exact (silent.turn tick other).held
  | evaluateAll tick =>
      rw [perform_evaluateAll]
      exact (silent.turns tick _).held
  | remove other tick =>
      exact (world.engine.combinator?_remove spares tick world.host).trans
        silent.held
  | change change => exact silent.held

/-- What spares a combinator leaves it silent, as long as its channels carry the
same. -/
theorem run (silent : world.Silent id combinator)
    {operations : List (Operation HostChange)}
    (spared : ∀ operation ∈ operations, operation.Spares id)
    (channels : ∀ reached, reached <+: operations →
      (world.run reached).host.channelsOf id = world.host.channelsOf id) :
    (world.run operations).Silent id combinator := by
  induction operations using List.reverseRecOn with
  | nil => exact silent
  | append_singleton earlier last ih =>
      obtain ⟨sooner, spares⟩ := List.forall_mem_append.mp spared
      have before := ih sooner fun reached first =>
        channels reached (first.trans (List.prefix_append _ _))
      have now := channels _ (List.prefix_refl _)
      rw [run_concat] at now ⊢
      exact silent.of_held
        (before.held_perform (spares last List.mem_cons_self)) now

end Silent

theorem silent_turn {world : MemoryWorld} {id : CombinatorId}
    {combinator : Combinator}
    (held : world.engine.combinator? id = some combinator) (tick : UInt64) :
    (world.turn tick id).Silent id
      (combinator.pass tick world.engine.ledger world.host).2.1 := by
  obtain ⟨upToDate, named, reads, channels⟩ :=
    combinator.upToDate_pass tick world.engine.ledger world.host
  have frame := (turn_frame world tick id).1
  obtain rfl := Engine.combinator?_id held
  refine ⟨?_, upToDate, ?_⟩
  · rw [turn_of_some tick held]
    show (world.engine.putCombinator _).combinator? _ = _
    rw [Engine.combinator?_putCombinator, if_pos named]
  · rw [channels, Combinator.readChannels_eq, Combinator.readChannels_eq, named,
      reads, MemoryHost.channelsOf, MemoryHost.channelsOf, frame]

/-- A repeated pass is silent.  After a pass of a combinator, on any host and
whatever came of it, a pass with any ledger and on any host that tells the same
channels fires no edge, does not reconcile, asks for nothing but the channels,
and changes neither the combinator nor the ledger.  In a run this stays so until
the channels carry something else, the rules of the combinator are set, its
wiring is forgotten, or it is taken out. -/
theorem repeated_passes_silent :
    (∀ {σ τ : Type} [ChannelReader σ] [WiringReader σ] [SectionEditor σ]
        [ChannelReader τ] [WiringReader τ] [SectionEditor τ]
        (combinator : Combinator) (tick again : UInt64)
        (ledger later : Ledger) (host : σ) (asked : Recorded τ),
        let after := (combinator.pass tick ledger host).2.1
        let read := after.readChannels asked.host
        read.1.channels = (combinator.readChannels host).1.channels →
          after.pass again later asked =
            (⟨combinator.id, again, [], none, none⟩, after, later,
              ⟨read.2, asked.calls ++ combinator.channelCalls⟩)) ∧
      ∀ (world : MemoryWorld) (id : CombinatorId) (combinator : Combinator)
        (tick : UInt64) (operations : List (Operation HostChange)),
        world.engine.combinator? id = some combinator →
        (∀ operation ∈ operations, operation.Spares id) →
        (∀ reached, reached <+: operations →
          ((world.turn tick id).run reached).host.channelsOf id =
            world.host.channelsOf id) →
          let now := (world.turn tick id).run operations
          now.engine.combinator? id =
            (world.turn tick id).engine.combinator? id ∧
            ∀ again, now.engine.evaluate id again (Recorded.mk now.host []) =
              (.ok ⟨id, again, [], none, none⟩, now.engine,
                ⟨now.host, combinator.channelCalls⟩) := by
  refine ⟨Combinator.pass_after_pass, ?_⟩
  intro world id combinator tick operations held spared channels now
  have started := silent_turn held tick
  have unchanged : (world.turn tick id).host.channelsOf id =
      world.host.channelsOf id :=
    channels [] List.nil_prefix
  have silent :
      now.Silent id
        (combinator.pass tick world.engine.ledger world.host).2.1 := by
    refine started.run spared fun reached sooner => ?_
    rw [unchanged]
    exact channels reached sooner
  refine ⟨silent.held.trans started.held.symm, fun again => ?_⟩
  obtain ⟨_, _, _, read⟩ :=
    combinator.upToDate_pass tick world.engine.ledger world.host
  have passed :=
    combinator.pass_after_pass tick again world.engine.ledger now.engine.ledger
      world.host (Recorded.mk now.host []) (silent.same.trans read)
  obtain rfl := Engine.combinator?_id held
  rw [Engine.evaluate_of_some silent.held, passed, Combinator.readChannels_eq]
  simp only [Engine.putCombinator_of_held silent.held, List.nil_append]

/-- A combinator wants iron on a target that refuses edits. -/
def sealedWorld : MemoryWorld :=
  (start .default ⟨0⟩).run
    [.change (.addTarget ⟨1⟩), .change (.connect ⟨7⟩ ⟨1⟩),
      .change (.reject ⟨1⟩ "sealed"), .add ⟨7⟩ [ironRule]]

/-- The target takes edits, gets iron from another combinator, and is
destroyed. -/
def elsewhereBusy : List (Operation HostChange) :=
  [.change (.accept ⟨1⟩), .change (.connect ⟨8⟩ ⟨1⟩), .add ⟨8⟩ [ironRule],
    .evaluateAll 6, .change (.destroyTarget ⟨1⟩), .change (.disconnect ⟨7⟩ ⟨1⟩),
    .evaluate ⟨7⟩ 7]

theorem repeated_passes_silent_sealed :
    let first := sealedWorld.turn 5 ⟨7⟩
    let now := first.run elsewhereBusy
    (first.reports.map fun report =>
      report.reconciliation.map ReconcileReport.isClean) =
        [some false] ∧
      now.engine.combinator? ⟨7⟩ = first.engine.combinator? ⟨7⟩ ∧
      now.engine.evaluate ⟨7⟩ 8 (Recorded.mk now.host []) =
        (.ok ⟨⟨7⟩, 8, [], none, none⟩, now.engine,
          ⟨now.host, [.channel ⟨7⟩ .red, .channel ⟨7⟩ .green]⟩) := by
  intro first now
  have listed : (sealedWorld.engine.combinator? ⟨7⟩).isSome = true := by
    decide +kernel
  obtain ⟨combinator, held⟩ := Option.isSome_iff_exists.mp listed
  have spared : ∀ operation ∈ elsewhereBusy, operation.Spares ⟨7⟩ := by
    simp [elsewhereBusy, Operation.Spares]
  have channels : ∀ reached ∈ elsewhereBusy.inits,
      (first.run reached).host.channelsOf ⟨7⟩ =
        sealedWorld.host.channelsOf ⟨7⟩ := by
    decide +kernel
  have calls : combinator.channelCalls =
      [.channel ⟨7⟩ .red, .channel ⟨7⟩ .green] := by
    have known :
        (sealedWorld.engine.combinator? ⟨7⟩).map Combinator.channelCalls =
          some [.channel ⟨7⟩ .red, .channel ⟨7⟩ .green] := by decide +kernel
    rw [held] at known
    exact Option.some.inj known
  obtain ⟨kept, silent⟩ :=
    repeated_passes_silent.2 sealedWorld ⟨7⟩ combinator 5 elsewhereBusy
      held spared fun reached sooner =>
        channels reached ((List.mem_inits _ _).mpr sooner)
  rw [calls] at silent
  exact ⟨by decide +kernel, kept, silent 8⟩

end World

end CircuitSections
