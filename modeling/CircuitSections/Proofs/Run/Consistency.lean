import CircuitSections.Proofs.Combinator.Policy
import CircuitSections.Proofs.Engine.Restoring
import CircuitSections.Proofs.Run.Happening

/-!
# What combinators remember in a run

In every reached world the limits accept the rules of all combinators.  A
combinator that knows its wiring reconciled it last, and one that had a pass
since it was given rules does not wait for another.  Unlike what is tracked,
this needs no good behaviour of the host or of those who save and load.
-/

namespace CircuitSections

/-- What a combinator remembers fits its story, and the limits accept its
rules. -/
structure Combinator.Consistent (combinator : Combinator) (limits : Limits)
    (log : List Event) : Prop where
  valid : combinator.Valid limits
  known : ∀ targets, combinator.wired = some targets →
    combinator.reconciled = TargetSet.ofList targets
  served : Since (.passed combinator.id) (.ruled combinator.id) log →
    combinator.rulesChanged = false

namespace Combinator.Consistent

variable {combinator : Combinator} {limits : Limits} {log notes : List Event}

/-- Without a pass of the combinator nothing new is asked of it. -/
theorem append (consistent : combinator.Consistent limits log)
    (silent : Event.passed combinator.id ∉ notes) :
    combinator.Consistent limits (log ++ notes) where
  valid := consistent.valid
  known := consistent.known
  served since := consistent.served (since.of_append silent).1

theorem ruled (valid : combinator.Valid limits)
    (known : ∀ targets, combinator.wired = some targets →
      combinator.reconciled = TargetSet.ofList targets) :
    combinator.Consistent limits (log ++ [.ruled combinator.id]) where
  valid := valid
  known := known
  served since := by
    have absent := (since.of_append (by simp)).2
    exact absurd List.mem_cons_self absent

theorem forgetWiring (consistent : combinator.Consistent limits log) :
    combinator.forgetWiring.Consistent limits log where
  valid := consistent.valid
  known targets known := by cases known
  served := consistent.served

/-- After a pass there is nothing left to wait for. -/
theorem pass (consistent : combinator.Consistent limits log) (tick : UInt64)
    (ledger : Ledger) (host : MemoryHost) (later : List Event) :
    (combinator.pass tick ledger host).2.1.Consistent limits later := by
  obtain ⟨few, accepted⟩ := consistent.valid
  rw [pass_combinator host.answers rfl]
  constructor
  · constructor
    · show (combinator.stepped tick _ _).rules.length ≤ _
      rw [stepped_rules, List.length_map]
      exact few
    · intro rule member
      obtain ⟨old, listed, same⟩ := (mem_stepped_rules tick _ _ member).2
      rw [← same]
      exact accepted old listed
  · intro targets known
    have same : combinator.wiredOr (host.wiring combinator.id) = targets :=
      Option.some.inj known
    rw [← same]
  · exact fun _ => rfl

end Combinator.Consistent

/-- All that the combinators of the engine remember fits the story. -/
structure World.Consistent (limits : Limits) (world : MemoryWorld) : Prop where
  sameLimits : world.engine.limits = limits
  held : ∀ id combinator, world.engine.combinator? id = some combinator →
    combinator.Consistent limits world.log

namespace World

variable {limits : Limits} {ids : RuleIdSupply} {world : MemoryWorld}

namespace Consistent

theorem start : (start limits ids).Consistent limits where
  sameLimits := rfl
  held id combinator found := by cases found

/-- A step keeps all this up if every combinator either is an old one that had
no pass, or is consistent for a reason of its own. -/
theorem of_held (consistent : world.Consistent limits) {after : MemoryWorld}
    (notes : List Event)
    (sameLimits : after.engine.limits = world.engine.limits)
    (log : after.log = world.log ++ notes)
    (held : ∀ id combinator, after.engine.combinator? id = some combinator →
      world.engine.combinator? id = some combinator ∧ Event.passed id ∉ notes ∨
        combinator.Consistent limits (world.log ++ notes)) :
    after.Consistent limits where
  sameLimits := sameLimits.trans consistent.sameLimits
  held id combinator found := by
    rw [log]
    rcases held id combinator found with ⟨old, silent⟩ | new
    · refine (consistent.held id combinator old).append ?_
      rwa [Engine.combinator?_id old]
    · exact new

/-- One combinator was put in, and the others did not have a pass. -/
theorem of_put (consistent : world.Consistent limits) {after : MemoryWorld}
    (notes : List Event) (combinator : Combinator)
    (sameLimits : after.engine.limits = world.engine.limits)
    (put : after.engine.combinators =
      (world.engine.putCombinator combinator).combinators)
    (log : after.log = world.log ++ notes)
    (silent : ∀ id, id ≠ combinator.id → Event.passed id ∉ notes)
    (new : combinator.Consistent limits (world.log ++ notes)) :
    after.Consistent limits := by
  apply consistent.of_held notes sameLimits log
  intro id other found
  have there : (world.engine.putCombinator combinator).combinator? id =
      some other := by
    rw [Engine.combinator?, ← put]
    exact found
  rcases Engine.held_putCombinator there with ⟨rfl, _⟩ | ⟨apart, old⟩
  · exact .inr new
  · exact .inl ⟨old, silent id (Ne.symm apart)⟩

theorem turn (consistent : world.Consistent limits) (tick : UInt64)
    (id : CombinatorId) :
    (world.turn tick id).Consistent limits := by
  cases found : world.engine.combinator? id with
  | none =>
      rw [turn_of_none tick found]
      exact consistent
  | some combinator =>
      have turned := turn_of_some tick found
      have named := Engine.combinator?_id found
      let notes : List Event := (world.engine.addedBy world.host id tick).map
        (.created (.pass id)) ++ [.passed id]
      have after := (consistent.held id combinator found).pass tick
        world.engine.ledger world.host
        (world.log ++ notes)
      refine consistent.of_put notes
        (combinator.pass tick world.engine.ledger world.host).2.1
        ?_ ?_ ?_ ?_ after
      · rw [turned]
        rfl
      · rw [turned]
      · rw [turned, List.append_assoc]
      · intro other apart
        rw [Combinator.pass_id, named] at apart
        simp [notes, apart]

theorem turns (consistent : world.Consistent limits) (tick : UInt64)
    (ids : List CombinatorId) :
    (world.turns tick ids).Consistent limits :=
  turns_induction (Consistent limits) consistent
    (fun _ id between => between.turn tick id) ids

theorem of_same (consistent : world.Consistent limits) {after : MemoryWorld}
    (notes : List Event)
    (sameLimits : after.engine.limits = world.engine.limits)
    (same : after.engine.combinators = world.engine.combinators)
    (log : after.log = world.log ++ notes)
    (silent : ∀ id, Event.passed id ∉ notes) :
    after.Consistent limits := by
  apply consistent.of_held notes sameLimits log
  intro id combinator found
  rw [Engine.combinator?, same] at found
  exact .inl ⟨found, silent id⟩

theorem perform (consistent : world.Consistent limits)
    (operation : Operation HostChange) :
    (world.perform operation).Consistent limits := by
  have sameLimits := consistent.sameLimits
  cases operation with
  | add id configs =>
      rcases world.engine.add_cases id configs with
        ⟨cause, refused⟩ | ⟨combinator, ids, added, _, rfl, wired, _, _, valid⟩
      · have same : world.perform (.add id configs) = world := by
          simp [World.perform, refused, toldOf]
        rw [same]
        exact consistent
      · rw [sameLimits] at valid
        simp only [World.perform, added, toldOf, Chronicle.told, Event.told]
        refine consistent.of_put [.ruled combinator.id] combinator rfl rfl
          rfl (by simp) ?_
        apply Combinator.Consistent.ruled valid
        simp [wired]
  | setRules id configs =>
      rcases world.engine.setRules_cases id configs with
        ⟨cause, refused⟩ |
          ⟨old, combinator, ids, given, found, rfl, wired, reconciled, _, valid⟩
      · have same : world.perform (.setRules id configs) = world := by
          simp [World.perform, refused, toldOf]
        rw [same]
        exact consistent
      · have before := consistent.held combinator.id old found
        rw [sameLimits] at valid
        simp only [World.perform, given, toldOf, Chronicle.told, Event.told]
        refine consistent.of_put [.ruled combinator.id] combinator rfl rfl
          rfl (by simp) ?_
        apply Combinator.Consistent.ruled (valid before.valid)
        rw [wired, reconciled]
        exact before.known
  | addRestored id snapshots =>
      rcases world.engine.addRestored_cases id snapshots with
        ⟨cause, refused⟩ | ⟨combinator, added, rfl, wired, unchanged, valid⟩
      · have same : world.perform (.addRestored id snapshots) = world := by
          rw [perform_addRestored, refused]
        rw [same]
        exact consistent
      · rw [sameLimits] at valid
        rw [perform_addRestored, added]
        refine consistent.of_put [] combinator rfl rfl (List.append_nil _).symm
          (by simp) ?_
        exact ⟨valid, by simp [wired], fun _ => unchanged⟩
  | noteWiringChange id =>
      rcases world.engine.noteWiringChange_cases id with
        ⟨cause, refused⟩ | ⟨combinator, found, forgot⟩
      · have same : world.perform (.noteWiringChange id) = world := by
          rw [perform_noteWiringChange, refused]
        rw [same]
        exact consistent
      · have before := consistent.held id combinator found
        rw [perform_noteWiringChange, forgot]
        refine consistent.of_put [] combinator.forgetWiring rfl rfl
          (List.append_nil _).symm (by simp) ?_
        rw [List.append_nil]
        exact before.forgetWiring
  | noteDestroyed target =>
      rw [perform_noteDestroyed]
      refine consistent.of_held [] rfl (List.append_nil _).symm ?_
      intro id combinator found
      have mapped := Ascending.find?_mapKeeping world.engine.combinators
        Combinator.forgetWiring
        (fun _ => rfl) id
      obtain ⟨old, before, forgot⟩ :=
        Option.map_eq_some_iff.mp (mapped.symm.trans found)
      rw [List.append_nil, ← forgot]
      exact .inr (consistent.held id old before).forgetWiring
  | restoreLedger entries =>
      rw [perform_restoreLedger]
      exact consistent.of_same [] rfl rfl (List.append_nil _).symm (by simp)
  | evaluate id tick => exact consistent.turn tick id
  | evaluateAll tick =>
      rw [perform_evaluateAll]
      exact consistent.turns tick world.engine.combinatorIds
  | remove id tick =>
      rw [perform_remove]
      refine consistent.of_held [] ?_ (List.append_nil _).symm ?_
      · simp only [Engine.remove]
        split
        · rfl
        · rfl
      · intro other combinator found
        exact .inl ⟨(Engine.held_remove found).2, List.not_mem_nil⟩
  | change change =>
      refine consistent.of_same (change.events world.host) rfl rfl rfl ?_
      intro id
      rcases HostChange.cases_apply world.host change with
        ⟨target, events, _⟩ | ⟨target, state, spec, _, events, _⟩ | ⟨events, _⟩
      · simp [events]
      · simp [events]
      · simp [events]

end Consistent

theorem consistent_run (limits : Limits) (ids : RuleIdSupply)
    (operations : List (Operation HostChange)) :
    ((start limits ids).run operations).Consistent limits :=
  run_induction (Consistent limits) .start
    (fun _ operation between => between.perform operation) operations

end World

end CircuitSections
