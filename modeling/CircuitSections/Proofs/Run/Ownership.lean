import CircuitSections.Proofs.Run.Happening

/-!
# Ownership

Every tracked section was made by a pass of the combinator that the ledger
names, even if the entry was loaded from an old save or its target is long gone.
As handles do not come round, an edit for a combinator can only hit what the
combinator itself made: `removed_by_its_maker` says so of every operation of a
combinator in every run.
-/

namespace CircuitSections

/-- The section of the entry was made by a pass of its owner. -/
def TrackedSection.AttributedIn (entry : TrackedSection)
    (log : List Event) : Prop :=
  ∃ spec, Event.created (.pass entry.owner) ⟨entry.target, entry.handle, spec⟩ ∈
    log

theorem TrackedSection.AttributedIn.of_earlier {entry : TrackedSection}
    {log later : List Event} (attributed : entry.AttributedIn log)
    (earlier : log <+: later) :
    entry.AttributedIn later := by
  obtain ⟨spec, created⟩ := attributed
  exact ⟨spec, earlier.subset created⟩

/-- All entries of the ledger are attributed to those who made the sections. -/
def Attributed (scene : Scene) : Prop :=
  ∀ entry ∈ scene.ledger.entries, entry.AttributedIn scene.log

namespace Attributed

variable {before after : Scene}

theorem of_fewer (attributed : Attributed before)
    (earlier : before.log <+: after.log)
    (kept : ∀ entry ∈ after.ledger.entries, entry ∈ before.ledger.entries) :
    Attributed after := by
  intro entry member
  exact (attributed entry (kept entry member)).of_earlier earlier

theorem edit {owner : CombinatorId} {tick : UInt64}
    {wanted : TargetId → SectionSpec → Prop}
    (edit : Edit owner tick wanted before after)
    (attributed : Attributed before) :
    Attributed after := by
  cases edit with
  | drop _ =>
      refine attributed.of_fewer (List.prefix_refl _) fun entry member => ?_
      exact (Ledger.mem_forgetOwnedOn.mp member).1
  | remove _ _ _ =>
      refine attributed.of_fewer (List.prefix_refl _) fun entry member => ?_
      exact (Ledger.mem_forget.mp member).1
  | lose _ _ _ =>
      refine attributed.of_fewer (List.prefix_refl _) fun entry member => ?_
      exact (Ledger.mem_forget.mp member).1
  | inject _ _ _ =>
      intro entry member
      rcases Ledger.mem_record.mp member with new | ⟨old, _⟩
      · subst new
        exact ⟨_, List.mem_append_right _ List.mem_cons_self⟩
      · exact (attributed entry old).of_earlier (List.prefix_append _ _)

end Attributed

theorem Happening.attributed {loadable : List TrackedSection → Prop}
    {forgettable : MemoryHost → TargetId → Prop} {before after : Scene}
    (happening : Happening loadable forgettable before after)
    (nothing : ∀ entries, ¬ loadable entries) (attributed : Attributed before) :
    Attributed after := by
  cases happening with
  | edit edit => exact Attributed.edit edit attributed
  | ruled id =>
      exact attributed.of_fewer (List.prefix_append _ _) fun _ member => member
  | passed id =>
      exact attributed.of_fewer (List.prefix_append _ _) fun _ member => member
  | forgot _ =>
      refine attributed.of_fewer (List.prefix_refl _) fun entry member => ?_
      exact (Ledger.mem_forgetTarget.mp member).1
  | loaded loadable => exact absurd loadable (nothing _)
  | changed change =>
      exact attributed.of_fewer (List.prefix_append _ _) fun _ member => member

theorem Happenings.attributed {loadable : List TrackedSection → Prop}
    {forgettable : MemoryHost → TargetId → Prop} {before after : Scene}
    (happenings : Happenings loadable forgettable before after)
    (nothing : ∀ entries, ¬ loadable entries) (attributed : Attributed before) :
    Attributed after := by
  induction happenings with
  | refl => exact attributed
  | tail _ happening induction => exact happening.attributed nothing induction

/-- Edits for an owner leave what anybody else made where it is. -/
theorem Edits.keep_others {owner : CombinatorId} {tick : UInt64}
    {wanted : TargetId → SectionSpec → Prop}
    {before after : Scene} (edits : Edits owner tick wanted before after)
    (attributed : Attributed before)
    (numbered : Numbered before.host before.log) (few : Few after.log)
    {placed : HostSection} (carried : before.host.Carries placed) :
    after.host.Carries placed ∨ Event.created (.pass owner) placed ∈
      before.log := by
  obtain ⟨maker, created⟩ := numbered.made placed carried
  induction edits with
  | refl => exact .inl carried
  | @tail mid later earlier edit induction =>
      have happened : Happenings (fun _ => False) (fun _ _ => False) before
          mid := .of_edits earlier
      have happening :
          Happening (fun _ => False) (fun _ _ => False) mid later := .edit edit
      have fewMid : Few mid.log := few.of_earlier happening.log_grows
      have numberedMid := happened.numbered numbered
      have createdMid := happened.log_grows.subset created
      rcases induction fewMid with still | own
      · cases edit with
        | drop _ => exact .inl still
        | @remove target spec entry host found owned removed =>
            by_cases hit : placed.target = target ∧ placed.handle = entry.handle
            · have tracked := Ledger.get?_eq_some_iff.mp found
              obtain ⟨made, entryCreated⟩ :=
                happened.attributed (fun _ loadable => loadable) attributed
                  entry tracked.1
              obtain ⟨same, _⟩ :=
                numberedMid.unique fewMid createdMid entryCreated hit.2
              rw [same, owned] at created
              exact .inr created
            · exact .inl
                ((MemoryHost.carries_removeSection removed).mpr ⟨still, hit⟩)
        | lose _ _ _ => exact .inl still
        | inject _ _ added =>
            obtain ⟨state, found, made⟩ := MemoryHost.addSection_ok added
            obtain ⟨rfl, rfl⟩ := Prod.mk.inj made
            refine .inl
              ((MemoryHost.carries_create found).mpr (.inr ⟨still, ?_⟩))
            intro hit
            exact numberedMid.fresh fewMid createdMid hit.2
      · exact .inr own

/-! ### Runs -/

/-- Saved entries are loaded only into the engine that they come from: each of
them was tracked at an earlier moment of the run. -/
def World.LoadsOwnSaves (world : MemoryWorld)
    (operations : List (Operation HostChange)) : Prop :=
  ∀ earlier entries later, operations =
    earlier ++ .restoreLedger entries :: later →
    ∀ entry ∈ entries, ∃ saved, saved <+: earlier ∧
      entry ∈ (world.run saved).engine.ledger.entries

/-- The combinator whose operation it is, if it is one of a single
combinator. -/
def Operation.actor : Operation HostChange → Option CombinatorId
  | .add id _ | .addRestored id _ | .setRules id _ |
      .noteWiringChange id | .evaluate id _
  | .remove id _ => some id
  | .noteDestroyed _ | .restoreLedger _ | .evaluateAll _ | .change _ => none

/-- What a combinator does from a world on: an operation of its own, or its turn
in a round, which starts when those before it had theirs. -/
inductive World.Deed (id : CombinatorId) (world : MemoryWorld) : MemoryWorld →
    MemoryWorld → Prop
  | operation {operation : Operation HostChange} :
      operation.actor = some id → Deed id world world (world.perform operation)
  | turn {tick : UInt64} {sooner later : List CombinatorId} :
      world.engine.combinatorIds = sooner ++ id :: later →
      Deed id world (world.turns tick sooner)
        ((world.turns tick sooner).turn tick id)

namespace World

theorem attributed_run {limits : Limits} {ids : RuleIdSupply}
    {operations : List (Operation HostChange)}
    (saves : (start limits ids).LoadsOwnSaves operations) :
    Attributed ((start limits ids).run operations).scene := by
  refine run_keeps (fun world => Attributed world.scene) ?_ ?_ operations
    (List.prefix_refl _)
  · exact fun entry member => absurd member List.not_mem_nil
  · intro earlier operation later split known
    have before := known earlier (List.prefix_refl _)
    have grown (saved : List (Operation HostChange))
        (sooner : saved <+: earlier) :
        ((start limits ids).run saved).log <+:
          ((start limits ids).run earlier).log := by
      obtain ⟨rest, rfl⟩ := sooner
      rw [run_append]
      exact run_log_grows _ rest
    by_cases loads : ∃ entries, operation = .restoreLedger entries
    · obtain ⟨entries, rfl⟩ := loads
      rw [perform_restoreLedger]
      intro entry member
      obtain ⟨saved, sooner, tracked⟩ :=
        saves earlier entries later split entry
          (Ledger.mem_of_mem_ofEntries member)
      exact (known saved sooner entry tracked).of_earlier (grown saved sooner)
    · have allowed : operation.Allowed (fun _ => False) (fun _ _ => True)
          ((start limits ids).run earlier).host := by
        cases operation with
        | restoreLedger entries => exact absurd ⟨entries, rfl⟩ loads
        | _ => trivial
      exact (perform_happens _ operation allowed).attributed
        (fun _ loadable => loadable) before

theorem turn_keeps {world : MemoryWorld} {tick : UInt64} {id : CombinatorId}
    (attributed : Attributed world.scene)
    (numbered : Numbered world.host world.log)
    (few : Few (world.turn tick id).log) {placed : HostSection}
    (carried : world.host.Carries placed) :
    (world.turn tick id).host.Carries placed ∨ Event.created (.pass id) placed ∈
      world.log := by
  cases found : world.engine.combinator? id with
  | none =>
      rw [turn_of_none tick found]
      exact .inl carried
  | some combinator =>
      obtain ⟨scene, edits, turned⟩ := turn_edits tick found
      have host : (world.turn tick id).host = scene.host :=
        congrArg Scene.host turned
      have log : (world.turn tick id).log = scene.log ++ [.passed id] :=
        congrArg Scene.log turned
      rw [log] at few
      rw [host]
      exact edits.keep_others attributed numbered
        (few.of_earlier (List.prefix_append _ _)) carried

theorem Deed.happens {id : CombinatorId} {world before after : MemoryWorld}
    (deed : Deed id world before after) :
    Happenings (fun _ => False) (fun _ _ => False) world.scene before.scene ∧
      Happenings (fun _ => False) (fun _ _ => False) before.scene
        after.scene := by
  cases deed with
  | @operation operation own =>
      refine ⟨.refl, perform_happens world operation ?_⟩
      cases operation <;> trivial
  | @turn tick sooner later listed =>
      exact ⟨turns_happen world tick sooner, turn_happens _ tick id⟩

/-- A deed of a combinator leaves what anybody else made where it is. -/
theorem Deed.keeps {id : CombinatorId} {world before after : MemoryWorld}
    (deed : Deed id world before after) (attributed : Attributed world.scene)
    (numbered : Numbered world.host world.log) (few : Few after.log)
    {placed : HostSection} (carried : before.host.Carries placed) :
    after.host.Carries placed ∨ Event.created (.pass id) placed ∈
      before.log := by
  cases deed with
  | @operation operation own =>
      cases operation with
      | evaluate other tick =>
          cases own
          exact turn_keeps attributed numbered few carried
      | remove other tick =>
          cases own
          exact (world.remove_edits id tick).keep_others attributed
            numbered few carried
      | add | addRestored | setRules | noteWiringChange => exact .inl carried
      | noteDestroyed | restoreLedger | evaluateAll | change => cases own
  | @turn tick sooner later listed =>
      have happenings :
          Happenings (fun _ => False) (fun _ _ => False) world.scene
        (world.turns tick sooner).scene := turns_happen world tick sooner
      exact turn_keeps
        (happenings.attributed (fun _ loadable => loadable) attributed)
        (happenings.numbered numbered) few carried

/-- Whatever a combinator does, in any run that loads only its own saves and
does not exhaust the handles: what disappears from the host was made by a pass
of that combinator, and what players and other combinators made stays as it
is. -/
theorem removed_by_its_maker {limits : Limits} {ids : RuleIdSupply}
    {operations : List (Operation HostChange)}
    (saves : (start limits ids).LoadsOwnSaves operations) {id : CombinatorId}
    {before after : MemoryWorld}
    (deed : Deed id ((start limits ids).run operations) before after)
    (few : Few after.log) :
    (∀ placed, before.host.Carries placed → ¬ after.host.Carries placed →
      Event.created (.pass id) placed ∈ before.log) ∧
    (∀ maker placed, Event.created maker placed ∈ before.log →
      maker ≠ .pass id →
      before.host.Carries placed → after.host.Carries placed) := by
  have attributed := attributed_run saves
  have numbered := numbered_run limits ids operations
  constructor
  · intro placed carried gone
    rcases deed.keeps attributed numbered few carried with still | own
    · exact absurd still gone
    · exact own
  · intro maker placed created other carried
    rcases deed.keeps attributed numbered few carried with still | own
    · exact still
    · have same := (deed.happens.1.numbered numbered).unique
        (few.of_earlier deed.happens.2.log_grows) created own rfl
      exact absurd same.1 other

theorem loadsOwnSaves_of_reload {world : MemoryWorld}
    {operations : List (Operation HostChange)}
    (unloaded : ∀ entries, Operation.restoreLedger entries ∉ operations) :
    world.LoadsOwnSaves
      (operations ++
        [.restoreLedger (world.run operations).engine.ledger.entries]) := by
  intro earlier entries later split entry member
  rcases split_concat split with ⟨rfl, same⟩ | ⟨rest, front⟩
  · cases same
    exact ⟨operations, List.prefix_refl _, member⟩
  · exact absurd (by simp [front]) (unloaded entries)

/-- The iron of a combinator, and then that of a player. -/
def mixedRun : List (Operation HostChange) :=
  ironRun ++ [.change (.addManualSection ⟨1⟩ iron)]

/-- The engine with both, after its ledger was saved and loaded. -/
def reloaded : MemoryWorld :=
  (start .default ⟨0⟩).run
    (mixedRun ++
      [.restoreLedger
        ((start .default ⟨0⟩).run mixedRun).engine.ledger.entries])

theorem removed_by_its_maker_reloaded :
    Event.created (.pass ⟨7⟩) ⟨⟨1⟩, ⟨0⟩, iron⟩ ∈ reloaded.log ∧
      (reloaded.perform (.remove ⟨7⟩ 9)).host.Carries ⟨⟨1⟩, ⟨1⟩, iron⟩ := by
  have saves : (start .default ⟨0⟩).LoadsOwnSaves (mixedRun ++
      [.restoreLedger
        ((start .default ⟨0⟩).run mixedRun).engine.ledger.entries]) :=
    loadsOwnSaves_of_reload (by simp [mixedRun, ironRun])
  have deed : Deed ⟨7⟩ reloaded reloaded (reloaded.perform (.remove ⟨7⟩ 9)) :=
    .operation rfl
  have kept := removed_by_its_maker saves deed (by unfold Few; decide +kernel)
  constructor
  · exact kept.1 ⟨⟨1⟩, ⟨0⟩, iron⟩ (by decide +kernel) (by decide +kernel)
  · exact kept.2 .hand ⟨⟨1⟩, ⟨1⟩, iron⟩ (by decide +kernel) (by decide)
      (by decide +kernel)

end World

end CircuitSections
