import CircuitSections.Proofs.Run.Handles
import Mathlib.Data.List.Induction

/-!
# What happens in a run

Whatever the operations are, the ledger and the host change in few ways: by the
edits of passes and removals, by changes of the host, by loading saved entries,
and by forgetting a target.  `World.perform_happens` takes every operation apart
into these, so an invariant that each of them keeps holds in all reached worlds
(`World.run_keeps`).
-/

namespace CircuitSections

/-- One step in the story of a scene.  Which saved entries may be loaded and
which targets may be forgotten is left open. -/
inductive Happening (loadable : List TrackedSection → Prop)
    (forgettable : MemoryHost → TargetId → Prop) : Scene → Scene → Prop
  | edit {owner : CombinatorId} {tick : UInt64}
      {wanted : TargetId → SectionSpec → Prop}
      {before after : Scene} :
      Edit owner tick wanted before after →
        Happening loadable forgettable before after
  | ruled {scene : Scene} (id : CombinatorId) :
      Happening loadable forgettable scene { scene with
        log := scene.log ++ [.ruled id] }
  | passed {scene : Scene} (id : CombinatorId) :
      Happening loadable forgettable scene { scene with
        log := scene.log ++ [.passed id] }
  | forgot {scene : Scene} {target : TargetId} :
      forgettable scene.host target →
      Happening loadable forgettable scene
        { scene with ledger := (scene.ledger.forgetTarget target).2 }
  | loaded {scene : Scene} {entries : List TrackedSection} :
      loadable entries →
      Happening loadable forgettable scene { scene with
        ledger := .ofEntries entries }
  | changed {scene : Scene} (change : HostChange) :
      Happening loadable forgettable scene
        { scene with
          host := change.apply scene.host
          log := scene.log ++ change.events scene.host }

/-- Steps one after the other. -/
abbrev Happenings (loadable : List TrackedSection → Prop)
    (forgettable : MemoryHost → TargetId → Prop) : Scene → Scene → Prop :=
  Relation.ReflTransGen (Happening loadable forgettable)

/-! ### Changes of the host -/

namespace HostChange

/-- What a change of the host can do to the sections: clear a target, put one
section under the next handle, or nothing. -/
theorem cases_apply (host : MemoryHost) (change : HostChange) :
    (∃ target, change.events host = [.cleared target] ∧
      (change.apply host).nextHandle = host.nextHandle ∧
      ∀ placed, (change.apply host).Carries placed ↔
        host.Carries placed ∧ placed.target ≠ target) ∨
    (∃ target state spec, host.targets target = some state ∧
      change.events host = [.created .hand ⟨target, ⟨host.nextHandle⟩, spec⟩] ∧
      change.apply host = (host.create target state spec).2) ∨
    (change.events host = [] ∧ (change.apply host).nextHandle =
      host.nextHandle ∧
      ∀ placed, (change.apply host).Carries placed ↔ host.Carries placed) := by
  have spawned (target : TargetId) (supported : Bool) (placed : HostSection) :
      (host.spawn target supported).Carries placed ↔
        host.Carries placed ∧ placed.target ≠ target := by
    refine MemoryHost.carries_of_cleared rfl ?_
    rintro state ⟨⟩
    rfl
  have updated (target : TargetId) (change : Target → Target)
      (kept : ∀ state, (change state).sections = state.sections) :
      (host.updateTarget target change).nextHandle = host.nextHandle ∧
        ∀ placed, (host.updateTarget target change).Carries placed ↔
          host.Carries placed := by
    unfold MemoryHost.updateTarget
    split
    · exact ⟨rfl, fun placed => Iff.rfl⟩
    next state found =>
      refine ⟨rfl, fun placed => ?_⟩
      by_cases same : placed.target = target
      · rw [MemoryHost.carries_of_replaced rfl same, kept]
        simp [MemoryHost.Carries, same, found]
      · exact MemoryHost.carries_of_other rfl same
  cases change with
  | addTarget target => exact .inl ⟨target, rfl, rfl, spawned target true⟩
  | addPlainTarget target => exact .inl ⟨target, rfl, rfl, spawned target false⟩
  | destroyTarget target =>
      refine .inl
        ⟨target, rfl, rfl, fun placed => MemoryHost.carries_of_cleared rfl ?_⟩
      rintro state ⟨⟩
  | connect combinator target =>
      refine .inr (.inr ⟨rfl, ?_⟩)
      simp only [apply, MemoryHost.connect]
      split
      · exact ⟨rfl, fun placed => Iff.rfl⟩
      · exact ⟨rfl, fun placed => Iff.rfl⟩
  | disconnect combinator target =>
      exact .inr (.inr ⟨rfl, rfl, fun placed => Iff.rfl⟩)
  | setChannel combinator channel signals =>
      exact .inr (.inr ⟨rfl, rfl, fun placed => Iff.rfl⟩)
  | setSignal combinator channel signal count =>
      exact .inr (.inr ⟨rfl, rfl, fun placed => Iff.rfl⟩)
  | reject target reason =>
      exact .inr (.inr ⟨rfl, updated target _ fun _ => rfl⟩)
  | accept target => exact .inr (.inr ⟨rfl, updated target _ fun _ => rfl⟩)
  | addManualSection target spec =>
      cases answered : (host.addManualSection target spec).1 with
      | none =>
          have same := MemoryHost.addManualSection_none answered
          refine .inr (.inr ⟨by simp [events, answered], ?_⟩)
          simp [apply, same]
      | some handle =>
          obtain ⟨state, found, made⟩ :=
            MemoryHost.addManualSection_some answered
          obtain ⟨numbered, applied⟩ := Prod.mk.inj made
          refine .inr (.inl ⟨target, state, spec, found, ?_, applied⟩)
          simp [events, answered, numbered]

end HostChange

namespace Happening

variable {loadable : List TrackedSection → Prop}
  {forgettable : MemoryHost → TargetId → Prop}
  {before after : Scene}

theorem log_grows (happening : Happening loadable forgettable before after) :
    before.log <+: after.log := by
  cases happening with
  | edit edit =>
      cases edit with
      | drop _ => exact List.prefix_refl _
      | remove _ _ _ => exact List.prefix_refl _
      | lose _ _ _ => exact List.prefix_refl _
      | inject _ _ _ => exact List.prefix_append _ _
  | ruled id => exact List.prefix_append _ _
  | passed id => exact List.prefix_append _ _
  | forgot _ => exact List.prefix_refl _
  | loaded _ => exact List.prefix_refl _
  | changed change => exact List.prefix_append _ _

theorem numbered (happening : Happening loadable forgettable before after)
    (numbered : Numbered before.host before.log) :
    Numbered after.host after.log := by
  cases happening with
  | edit edit =>
      cases edit with
      | drop _ => exact numbered
      | remove _ _ removed =>
          refine numbered.of_fewer (MemoryHost.removeSection_frame removed).1
            rfl ?_
          exact fun placed carried =>
            ((MemoryHost.carries_removeSection removed).mp carried).1
      | lose _ _ _ => exact numbered
      | inject _ _ added =>
          obtain ⟨state, found, made⟩ := MemoryHost.addSection_ok added
          obtain ⟨rfl, rfl⟩ := Prod.mk.inj made
          exact numbered.create found _ _
  | ruled id =>
      refine numbered.of_fewer rfl ?_ fun _ carried => carried
      simp [creations, Event.creation?]
  | passed id =>
      refine numbered.of_fewer rfl ?_ fun _ carried => carried
      simp [creations, Event.creation?]
  | forgot _ => exact numbered
  | loaded _ => exact numbered
  | changed change =>
      rcases HostChange.cases_apply before.host change with
        ⟨target, events, next, carries⟩ |
          ⟨target, state, spec, found, events, applied⟩ |
        ⟨events, next, carries⟩
      · refine numbered.of_fewer next ?_ fun placed carried =>
          ((carries placed).mp carried).1
        simp [events, creations, Event.creation?]
      · show Numbered (change.apply before.host)
          (before.log ++ change.events before.host)
        rw [events, applied]
        exact numbered.create found spec .hand
      · refine numbered.of_fewer next ?_ fun placed carried =>
          (carries placed).mp carried
        simp [events]

end Happening

namespace Happenings

variable {loadable : List TrackedSection → Prop}
  {forgettable : MemoryHost → TargetId → Prop}
  {before after : Scene}

theorem log_grows (happenings : Happenings loadable forgettable before after) :
    before.log <+: after.log := by
  induction happenings with
  | refl => exact List.prefix_refl _
  | tail _ happening induction => exact induction.trans happening.log_grows

theorem numbered (happenings : Happenings loadable forgettable before after)
    (start : Numbered before.host before.log) :
    Numbered after.host after.log := by
  induction happenings with
  | refl => exact start
  | tail _ happening induction => exact happening.numbered induction

/-- What every step keeps while sections are few, all steps together keep. -/
theorem keep (Kept : Scene → Prop)
    (happenings : Happenings loadable forgettable before after)
    (step : ∀ {earlier later : Scene},
      Happening loadable forgettable earlier later →
      Numbered earlier.host earlier.log → Few later.log →
        Kept earlier → Kept later)
    (numbered : Numbered before.host before.log) (few : Few after.log)
    (kept : Kept before) :
    Kept after := by
  induction happenings with
  | refl => exact kept
  | tail earlier happening induction =>
      have fewer := few.of_earlier happening.log_grows
      exact step happening (Happenings.numbered earlier numbered) few
        (induction fewer)

theorem of_edits {owner : CombinatorId} {tick : UInt64}
    {wanted : TargetId → SectionSpec → Prop}
    (edits : Edits owner tick wanted before after) :
    Happenings loadable forgettable before after :=
  Relation.ReflTransGen.mono (fun _ _ edit => .edit edit) before after edits

end Happenings

/-! ### Operations -/

/-- Nothing is made or reported where nothing is wanted. -/
theorem Edits.story_of_nothing_wanted {owner : CombinatorId} {tick : UInt64}
    {before after : Scene}
    (edits : Edits owner tick (fun _ _ => False) before after) :
    after.log = before.log ∧ after.orphaned = before.orphaned := by
  induction edits with
  | refl => exact ⟨rfl, rfl⟩
  | tail _ edit induction =>
      cases edit with
      | drop _ => exact induction
      | remove _ _ _ => exact induction
      | lose _ _ _ => exact induction
      | inject want _ _ => exact want.elim

namespace World

/-- A turn is edits for the combinator, which add what it wants after the
pass. -/
theorem turn_edits {world : MemoryWorld} {id : CombinatorId}
    {combinator : Combinator} (tick : UInt64)
    (found : world.engine.combinator? id = some combinator) :
    ∃ scene, Edits id tick
        (combinator.pass tick world.engine.ledger world.host).2.1.Wants
          world.scene scene ∧
      (world.turn tick id).scene = { scene with
        log := scene.log ++ [.passed id] } := by
  have edits := combinator.pass_edits tick world.log world.scene.orphaned
    world.engine.ledger (Journal.opened world.host)
  have shown : combinator.pass tick world.engine.ledger world.host = _ :=
    Journal.transparent.pass combinator tick world.engine.ledger
      (Journal.opened world.host)
  have turned := turn_of_some tick found
  rw [Engine.addedBy, Engine.evaluate_of_some found] at turned
  obtain rfl := Engine.combinator?_id found
  rcases ran :
    combinator.pass tick world.engine.ledger (Journal.opened world.host) with
    ⟨report, after, ledger, journal⟩
  simp only [ran, Prod.map, within] at edits shown turned
  rw [shown]
  rw [shown] at turned
  refine ⟨journal.scene combinator.id ledger world.log
    (world.scene.orphaned ++ report.orphaned), ?_, ?_⟩
  · simpa [Journal.scene, Journal.opened, scene] using edits
  · rw [turned]
    simp [scene, Journal.scene]

/-- Taking a combinator out is edits for it that want nothing. -/
theorem remove_edits (world : MemoryWorld) (id : CombinatorId) (tick : UInt64) :
    Edits id tick (fun _ _ => False) world.scene
      (world.perform (.remove id tick)).scene := by
  cases found : world.engine.combinator? id with
  | none =>
      have same : world.perform (.remove id tick) = world := by
        simp [perform_remove, Engine.remove, found]
      rw [same]
  | some combinator =>
      have edits :=
        combinator.tearDown_edits tick world.log world.scene.orphaned
          world.engine.ledger (Journal.opened world.host)
      have shown :
          combinator.tearDown tick world.engine.ledger world.host = _ :=
        Journal.transparent.tearDown combinator tick world.engine.ledger
          (Journal.opened world.host)
      obtain rfl := Engine.combinator?_id found
      rcases ran : combinator.tearDown tick world.engine.ledger
        (Journal.opened world.host) with
        ⟨report, after, ledger, journal⟩
      simp only [ran, Prod.map, within] at edits shown
      have performed : (world.perform (.remove combinator.id tick)).scene =
          ⟨ledger, journal.host, world.log, world.scene.orphaned⟩ := by
        simp only [perform_remove, Engine.remove, found, shown, scene]
      obtain ⟨log, orphaned⟩ := edits.story_of_nothing_wanted
      have opened :
          (Journal.opened world.host).scene combinator.id world.engine.ledger
          world.log world.scene.orphaned = world.scene := by
        simp [Journal.scene, Journal.opened, scene]
      rw [opened] at edits log orphaned
      have same : journal.scene combinator.id ledger world.log
          (world.scene.orphaned ++ report.orphaned) =
            ⟨ledger, journal.host, world.log, world.scene.orphaned⟩ := by
        simp only [Journal.scene, Scene.mk.injEq, true_and]
        exact ⟨log, orphaned⟩
      rw [performed, ← same]
      exact edits

end World

namespace Engine

variable (engine : Engine) (id : CombinatorId)

theorem add_ledger (configs : List RuleConfig) :
    (engine.add id configs).2.ledger = engine.ledger := by
  rcases engine.add_cases id configs with ⟨_, refused⟩ | ⟨_, _, added, _⟩
  · rw [refused]
  · rw [added]
    rfl

theorem addRestored_ledger (snapshots : List RuleSnapshot) :
    (engine.addRestored id snapshots).2.ledger = engine.ledger := by
  rcases engine.addRestored_cases id snapshots with ⟨_, refused⟩ | ⟨_, added, _⟩
  · rw [refused]
  · rw [added]
    rfl

theorem setRules_ledger (configs : List RuleConfig) :
    (engine.setRules id configs).2.ledger = engine.ledger := by
  rcases engine.setRules_cases id configs with ⟨_, refused⟩ |
    ⟨_, _, _, given, _⟩
  · rw [refused]
  · rw [given]
    rfl

theorem noteWiringChange_ledger : (engine.noteWiringChange id).2.ledger =
    engine.ledger := by
  rcases engine.noteWiringChange_cases id with ⟨_, refused⟩ | ⟨_, _, forgot⟩
  · rw [refused]
  · rw [forgot]
    rfl

end Engine

/-- The operation loads only loadable entries and forgets only forgettable
targets. -/
def Operation.Allowed (loadable : List TrackedSection → Prop)
    (forgettable : MemoryHost → TargetId → Prop) (host : MemoryHost) :
    Operation HostChange → Prop
  | .restoreLedger entries => loadable entries
  | .noteDestroyed target => forgettable host target
  | _ => True

namespace World

variable {loadable : List TrackedSection → Prop}
  {forgettable : MemoryHost → TargetId → Prop}

theorem turn_happens (world : MemoryWorld) (tick : UInt64) (id : CombinatorId) :
    Happenings loadable forgettable world.scene (world.turn tick id).scene := by
  cases found : world.engine.combinator? id with
  | none =>
      rw [turn_of_none tick found]
  | some combinator =>
      obtain ⟨scene, edits, turned⟩ := turn_edits tick found
      rw [turned]
      exact (Happenings.of_edits edits).tail (.passed id)

theorem turns_happen (world : MemoryWorld) (tick : UInt64)
    (ids : List CombinatorId) :
    Happenings loadable forgettable world.scene
      (world.turns tick ids).scene :=
  turns_induction
    (fun after => Happenings loadable forgettable world.scene after.scene) .refl
    (fun between id happened => happened.trans (turn_happens between tick id))
    ids

/-- Rules that are set are told of, and those that are refused are not. -/
private theorem toldOf_happens (world : MemoryWorld) {id : CombinatorId}
    {operation : Operation HostChange} (answer : Except EngineError Unit)
    (told : Event.told world.engine world.host operation = [.ruled id]) :
    Happenings loadable forgettable world.scene
      { world.scene with log := world.toldOf operation answer } := by
  cases answer with
  | ok _ =>
      simp only [toldOf, Chronicle.told, told]
      exact .single (.ruled id)
  | error cause => exact .refl

/-- Every operation comes apart into the few things that can happen. -/
theorem perform_happens (world : MemoryWorld) (operation : Operation HostChange)
    (allowed : operation.Allowed loadable forgettable world.host) :
    Happenings loadable forgettable world.scene
      (world.perform operation).scene := by
  cases operation with
  | add id configs =>
      have same : (world.perform (.add id configs)).scene =
          { world.scene with
            log := world.toldOf (.add id configs)
              (world.engine.add id configs).1 } := by
        simp only [perform, scene, Engine.add_ledger]
      rw [same]
      exact toldOf_happens world _ rfl
  | addRestored id snapshots =>
      have same : (world.perform (.addRestored id snapshots)).scene =
          world.scene := by
        simp only [perform_addRestored, scene, Engine.addRestored_ledger]
      rw [same]
  | setRules id configs =>
      have same : (world.perform (.setRules id configs)).scene =
          { world.scene with
            log := world.toldOf (.setRules id configs)
              (world.engine.setRules id configs).1 } := by
        simp only [perform, scene, Engine.setRules_ledger]
      rw [same]
      exact toldOf_happens world _ rfl
  | noteWiringChange id =>
      have same : (world.perform (.noteWiringChange id)).scene =
          world.scene := by
        simp only [perform_noteWiringChange, scene,
          Engine.noteWiringChange_ledger]
      rw [same]
  | noteDestroyed target =>
      rw [perform_noteDestroyed]
      exact .single (.forgot allowed)
  | restoreLedger entries =>
      rw [perform_restoreLedger]
      exact .single (.loaded allowed)
  | evaluate id tick => exact turn_happens world tick id
  | evaluateAll tick =>
      rw [perform_evaluateAll]
      exact turns_happen world tick _
  | remove id tick => exact .of_edits (remove_edits world id tick)
  | change change => exact .single (.changed change)

theorem perform_happens_freely (world : MemoryWorld)
    (operation : Operation HostChange) :
    Happenings (fun _ => True) (fun _ _ => True) world.scene
      (world.perform operation).scene :=
  perform_happens world operation (by cases operation <;> trivial)

theorem perform_log_grows (world : MemoryWorld)
    (operation : Operation HostChange) :
    world.log <+: (world.perform operation).log :=
  (perform_happens_freely world operation).log_grows

theorem run_log_grows (world : MemoryWorld)
    (operations : List (Operation HostChange)) :
    world.log <+: (world.run operations).log :=
  run_induction (fun after => world.log <+: after.log) (List.prefix_refl _)
    (fun between operation grown =>
      grown.trans (perform_log_grows between operation)) operations

theorem numbered_run (limits : Limits) (ids : RuleIdSupply)
    (operations : List (Operation HostChange)) :
    Numbered ((start limits ids).run operations).host
      ((start limits ids).run operations).log :=
  run_induction (fun world => Numbered world.host world.log) .start
    (fun between operation =>
      (perform_happens_freely between operation).numbered) operations

/-- What every operation keeps, given that it was kept all along, holds all
along. -/
theorem run_keeps (Kept : MemoryWorld → Prop) {world : MemoryWorld}
    {operations : List (Operation HostChange)} (start : Kept world)
    (step : ∀ earlier operation later,
      operations = earlier ++ operation :: later →
      (∀ saved, saved <+: earlier → Kept (world.run saved)) →
      Kept ((world.run earlier).perform operation)) :
    ∀ reached, reached <+: operations → Kept (world.run reached) := by
  intro reached earlier
  have all : ∀ saved, saved <+: reached → Kept (world.run saved) := by
    induction reached using List.reverseRecOn with
    | nil =>
        intro saved first
        rw [List.prefix_nil.mp first]
        exact start
    | append_singleton before operation induction =>
        have known := induction ((List.prefix_append _ _).trans earlier)
        intro saved first
        rcases List.prefix_concat_iff.mp first with last | sooner
        · obtain ⟨later, split⟩ := earlier
          rw [last, run_concat]
          exact step before operation later (by rw [← split]; simp) known
        · exact known saved sooner
  exact all reached (List.prefix_refl _)

end World

end CircuitSections
