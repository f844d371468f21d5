import CircuitSections.Proofs.Run.Upkeep

/-!
# Steady runs

A run is steady if targets are left alone from the moment that they are wired
and no two combinators have injecting rules for one spec.  Everything else may
happen in any order: signals, wiring, new rules, combinators that come and go,
and passes.  Then each pass leaves the ledger and the host as the policy of its
combinator says.
-/

namespace CircuitSections

/-! ### Changes of the host -/

namespace HostChange

variable {host : MemoryHost} {change : HostChange} {target : TargetId}

theorem mem_wiring {id : CombinatorId}
    (member : target ∈ (change.apply host).wiring id) :
    target ∈ host.wiring id ∨ change = .connect id target := by
  have updated (place : TargetId) (update : Target → Target) :
      (host.updateTarget place update).wiring = host.wiring := by
    unfold MemoryHost.updateTarget
    split <;> rfl
  cases change with
  | addTarget | addPlainTarget | destroyTarget | setChannel | setSignal =>
      exact .inl member
  | connect combinator wired =>
      simp only [apply, MemoryHost.connect] at member
      split at member
      · exact .inl member
      · by_cases same : id = combinator
        · subst same
          simp only [replaceAt, if_true, List.mem_append,
            List.mem_singleton] at member
          rcases member with old | rfl
          · exact .inl old
          · exact .inr rfl
        · simp only [replaceAt, if_neg same] at member
          exact .inl member
  | disconnect combinator unwired =>
      by_cases same : id = combinator
      · subst same
        simp only [apply, MemoryHost.disconnect, replaceAt, if_true] at member
        exact .inl (List.mem_filter.mp member).1
      · simp only [apply, MemoryHost.disconnect, replaceAt,
          if_neg same] at member
        exact .inl member
  | reject place reason =>
      rw [apply, MemoryHost.reject, updated] at member
      exact .inl member
  | accept place =>
      rw [apply, MemoryHost.accept, updated] at member
      exact .inl member
  | addManualSection place spec =>
      refine .inl ?_
      simp only [apply, MemoryHost.addManualSection] at member
      split at member
      · exact member
      · split at member
        · exact member
        · exact member

theorem of_cleared (cleared : Event.cleared target ∈ change.events host) :
    change = .addTarget target ∨ ¬ (change.apply host).Accepts target := by
  cases change with
  | addTarget place =>
      cases List.mem_singleton.mp cleared
      exact .inl rfl
  | addPlainTarget place =>
      cases List.mem_singleton.mp cleared
      refine .inr fun accepts => ?_
      obtain ⟨state, found, supported, _⟩ := accepts
      simp only [apply, MemoryHost.addPlainTarget, MemoryHost.spawn, replaceAt,
        if_true] at found
      cases found
      cases supported
  | destroyTarget place =>
      cases List.mem_singleton.mp cleared
      refine .inr fun accepts => ?_
      obtain ⟨state, found, _⟩ := accepts
      simp [apply, MemoryHost.destroyTarget, replaceAt] at found
  | addManualSection place spec =>
      simp only [events] at cleared
      split at cleared
      · cases List.mem_singleton.mp cleared
      · exact absurd cleared List.not_mem_nil
  | connect | disconnect | setChannel | setSignal | reject | accept =>
      exact absurd cleared List.not_mem_nil

end HostChange

/-! ### The invariant over a run -/

/-- A combinator has an injecting rule for a spec with the given key. -/
def World.Uses (world : MemoryWorld) (id : CombinatorId)
    (key : SpecKey) : Prop :=
  ∃ combinator, world.engine.combinator? id = some combinator ∧
    ∃ rule ∈ combinator.rules, rule.config.action = .inject ∧
      rule.config.spec.key = key

/-- The target was wired to some combinator at some time. -/
def EverWired (operations : List (Operation HostChange))
    (target : TargetId) : Prop :=
  ∃ id, Operation.change (.connect id target) ∈ operations

/-- Combinators are only added anew and the ledger is only changed by passes;
from the moment that it is wired a target exists, supports sections, does not
reject edits and is not spawned again; and each spec is used by one combinator
during the whole run. -/
structure World.Steady (world : MemoryWorld)
    (operations : List (Operation HostChange)) : Prop where
  unrestored : ∀ id snapshots, Operation.addRestored id snapshots ∉ operations
  unloaded : ∀ entries, Operation.restoreLedger entries ∉ operations
  unforgotten : ∀ target, Operation.noteDestroyed target ∉ operations
  accepting : ∀ reached, reached <+: operations →
    ∀ target, EverWired reached target → (world.run reached).host.Accepts target
  lasting : ∀ earlier target later,
    operations = earlier ++ .change (.addTarget target) :: later →
      ¬ EverWired earlier target
  separate : ∀ reached reached', reached <+: operations →
    reached' <+: operations →
    ∀ id id' key, (world.run reached).Uses id key →
      (world.run reached').Uses id' key → id = id'

namespace Upkept

variable {used : CombinatorId → SpecKey → Prop} {wired : TargetId → Prop}
  {world : MemoryWorld}

/-- A change of the host keeps everything up, if wired targets are left
alone. -/
theorem change (upkept : Upkept used wired world) {more : TargetId → Prop}
    {change : HostChange} (weaker : ∀ target, wired target → more target)
    (connects : ∀ id target, change = .connect id target → more target)
    (lasting : ∀ target, change = .addTarget target → ¬ wired target)
    (accepting : ∀ target, more target →
      (change.apply world.host).Accepts target) :
    Upkept used more (world.perform (.change change)) where
  orderly := by
    refine upkept.orderly.of_fewer (change.events world.host)
      (fun _ member => member)
      rfl ?_ rfl weaker accepting
    intro entry member cleared
    have known := upkept.orderly.onWired entry member
    rcases HostChange.of_cleared cleared with spawned | refuses
    · exact lasting entry.target spawned known
    · exact refuses (accepting entry.target (weaker entry.target known))
  rules := upkept.rules
  known id combinator found target member :=
    weaker target (upkept.known id combinator found target member)
  wiring id target member := by
    rcases HostChange.mem_wiring member with old | new
    · exact weaker target (upkept.wiring id target old)
    · exact connects id target new
  current := upkept.current

theorem perform (upkept : Upkept used wired world)
    (sole : ∀ a b key, used a key → used b key → a = b)
    {operation : Operation HostChange}
    (unrestored : ∀ id snapshots, operation ≠ .addRestored id snapshots)
    (unloaded : ∀ entries, operation ≠ .restoreLedger entries)
    (unforgotten : ∀ target, operation ≠ .noteDestroyed target)
    (unchanged : ∀ change, operation ≠ .change change)
    (uses : ∀ id key, (world.perform operation).Uses id key → used id key) :
    Upkept used wired (world.perform operation) := by
  have rules : ∀ id combinator, (world.perform operation).engine.combinator?
      id = some combinator →
      ∀ rule ∈ combinator.rules, rule.config.action = .inject →
        used id rule.config.spec.key := by
    intro id combinator found rule member injects
    exact uses id _ ⟨combinator, found, rule, member, injects, rfl⟩
  cases operation with
  | add id configs =>
      rcases world.engine.add_cases id configs with
        ⟨cause, refused⟩ |
          ⟨combinator, ids, added, _, named, unwired, _, changed, _⟩
      · simpa [World.perform, refused, World.toldOf] using upkept
      · simp only [World.perform, added, World.toldOf, Chronicle.told,
          Event.told] at rules ⊢
        refine upkept.of_engine _ _ rfl (by simp) rules
          fun other theirs found => ?_
        rcases Engine.held_putCombinator found with ⟨rfl, _⟩ | ⟨_, old⟩
        · refine .inr ⟨by simp [unwired], fun unchanged => ?_⟩
          rw [changed] at unchanged
          cases unchanged
        · exact .inl old
  | setRules id configs =>
      rcases world.engine.setRules_cases id configs with
        ⟨cause, refused⟩ |
          ⟨old, combinator, ids, set, foundOld, named, wiredSame, _, changed, _⟩
      · simpa [World.perform, refused, World.toldOf] using upkept
      · simp only [World.perform, set, World.toldOf, Chronicle.told,
          Event.told] at rules ⊢
        refine upkept.of_engine _ _ rfl (by simp) rules
          fun other theirs found => ?_
        rcases Engine.held_putCombinator found with ⟨rfl, _⟩ | ⟨_, same⟩
        · refine .inr ⟨?_, fun unchanged => ?_⟩
          · rw [wiredSame]
            exact upkept.known id old foundOld
          · rw [changed] at unchanged
            cases unchanged
        · exact .inl same
  | noteWiringChange id =>
      rcases world.engine.noteWiringChange_cases id with ⟨cause, refused⟩ |
        ⟨old, foundOld, noted⟩
      · simpa [World.perform_noteWiringChange, refused] using upkept
      · simp only [World.perform_noteWiringChange, noted] at rules ⊢
        have kept :=
          upkept.of_engine (world.engine.putCombinator old.forgetWiring) [] rfl
            (by simp) rules fun other theirs found => by
              rcases Engine.held_putCombinator found with ⟨rfl, _⟩ | ⟨_, same⟩
              · exact .inr ⟨by simp [Combinator.forgetWiring],
                  upkept.current id old foundOld⟩
              · exact .inl same
        simpa using kept
  | evaluate id tick => exact upkept.turn sole tick id
  | evaluateAll tick =>
      rw [World.perform_evaluateAll]
      exact upkept.turns sole tick _
  | remove id tick =>
      have edits := world.remove_edits id tick
      obtain ⟨orderly, others⟩ :=
        edits.orderly sole (fun _ _ want => want.elim) upkept.orderly
      constructor
      · exact orderly
      · exact rules
      · intro other theirs found
        exact upkept.known other theirs (Engine.held_remove found).2
      · intro other target member
        have sameWiring : (world.perform (.remove id tick)).host.wiring =
            world.host.wiring :=
          edits.frame.2
        rw [sameWiring] at member
        exact upkept.wiring other target member
      · intro other theirs found unchanged target key
        obtain ⟨apart, before⟩ := Engine.held_remove found
        have theirsApart : theirs.id ≠ id := by
          rw [Engine.combinator?_id before]
          exact Ne.symm apart
        exact (others theirs.id target key theirsApart).trans
          (upkept.current other theirs before unchanged target key)
  | addRestored id snapshots => exact absurd rfl (unrestored id snapshots)
  | restoreLedger entries => exact absurd rfl (unloaded entries)
  | noteDestroyed target => exact absurd rfl (unforgotten target)
  | change change => exact absurd rfl (unchanged change)

end Upkept

namespace World

variable {limits : Limits} {ids : RuleIdSupply}
  {operations : List (Operation HostChange)}

/-- A combinator uses a spec at some moment of the run. -/
def UsesIn (world : MemoryWorld) (operations : List (Operation HostChange))
    (id : CombinatorId) (key : SpecKey) : Prop :=
  ∃ reached, reached <+: operations ∧ (world.run reached).Uses id key

theorem Steady.sole {world : MemoryWorld} (steady : world.Steady operations)
    (a b : CombinatorId) (key : SpecKey) (left : world.UsesIn operations a key)
    (right : world.UsesIn operations b key) : a = b := by
  obtain ⟨reached, sooner, uses⟩ := left
  obtain ⟨reached', sooner', uses'⟩ := right
  exact steady.separate reached reached' sooner sooner' a b key uses uses'

/-- All along a steady run everything is kept up. -/
theorem Steady.upkept (steady : (start limits ids).Steady operations)
    {reached : List (Operation HostChange)} (sooner : reached <+: operations) :
    Upkept ((start limits ids).UsesIn operations) (EverWired reached)
      ((start limits ids).run reached) := by
  induction reached using List.reverseRecOn with
  | nil =>
      constructor
      · constructor
        · exact fun entry member => absurd member List.not_mem_nil
        · exact fun entry member => absurd member List.not_mem_nil
        · exact fun entry member => absurd member List.not_mem_nil
        · rfl
        · exact steady.accepting [] List.nil_prefix
      · intro id combinator found
        cases found
      · intro id combinator found
        cases found
      · exact fun id target member => absurd member List.not_mem_nil
      · intro id combinator found
        cases found
  | append_singleton earlier operation induction =>
      have before := induction ((List.prefix_append _ _).trans sooner)
      have weaker : ∀ target, EverWired earlier target →
          EverWired (earlier ++ [operation]) target := by
        intro target wired
        obtain ⟨id, member⟩ := wired
        exact ⟨id, List.mem_append_left _ member⟩
      have accepting := steady.accepting _ sooner
      have member : operation ∈ operations := sooner.subset (by simp)
      rw [run_concat] at accepting ⊢
      by_cases changes : ∃ change, operation = .change change
      · obtain ⟨change, rfl⟩ := changes
        refine before.change weaker ?_ ?_ accepting
        · intro id target same
          subst same
          exact ⟨id, by simp⟩
        · intro target same
          subst same
          obtain ⟨later, split⟩ := sooner
          exact steady.lasting earlier target later (by rw [← split]; simp)
      · refine (before.perform steady.sole ?_ ?_ ?_ ?_ ?_).mono weaker accepting
        · intro id snapshots same
          subst same
          exact steady.unrestored id snapshots member
        · intro entries same
          subst same
          exact steady.unloaded entries member
        · intro target same
          subst same
          exact steady.unforgotten target member
        · intro change same
          subst same
          exact changes ⟨change, rfl⟩
        · intro id key uses
          exact ⟨earlier ++ [operation], sooner, by rwa [run_concat]⟩

/-! ### After a pass -/

/-- A pass of a combinator from a world on, alone or in a round after those
before it. -/
inductive PassOf (id : CombinatorId) (world : MemoryWorld) : MemoryWorld → Prop
  | alone {tick : UInt64} : PassOf id world (world.turn tick id)
  | round {tick : UInt64} {sooner later : List CombinatorId} :
      world.engine.combinatorIds = sooner ++ id :: later →
      PassOf id world ((world.turns tick sooner).turn tick id)

/-- The specs of the sections on a target that passes of a combinator made and
that are still there, in the order of their creation. -/
def liveSpecs (world : MemoryWorld) (id : CombinatorId) (target : TargetId) :
    List SectionSpec :=
  match world.host.targets target with
  | none => []
  | some state =>
    (state.sections.toList.filter fun (handle, spec) =>
      Event.created (.pass id) ⟨target, handle, spec⟩ ∈ world.log).map Prod.snd

section Live

variable {used : CombinatorId → SpecKey → Prop} {wired : TargetId → Prop}
  {world : MemoryWorld}
  {id : CombinatorId} {target : TargetId}

/-- In an orderly world what passes of a combinator made is tracked for it. -/
theorem tracked_of_made (orderly : Orderly used wired world.scene)
    (accounted : Accounted world.scene)
    (numbered : Numbered world.host world.log) (few : Few world.log)
    {placed : HostSection} (carried : world.host.Carries placed)
    (made : Event.created (.pass id) placed ∈ world.log) :
    ∃ entry ∈ world.engine.ledger.entries, entry.owner = id ∧
      entry.placed = placed := by
  obtain ⟨entry, listed, same⟩ := accounted.covered id placed made carried
  have tracked : entry ∈ world.engine.ledger.entries := by
    rcases listed with member | displaced
    · exact member
    · rw [orderly.undisplaced] at displaced
      exact absurd displaced List.not_mem_nil
  have byOwner := accounted.made entry (.inl tracked)
  rw [same] at byOwner
  have makers := (numbered.unique few byOwner made rfl).1
  exact ⟨entry, tracked, Maker.pass.inj makers, same⟩

theorem mem_liveSpecs {spec : SectionSpec} :
    spec ∈ world.liveSpecs id target ↔
      ∃ handle, world.host.Carries ⟨target, handle, spec⟩ ∧
        Event.created (.pass id) ⟨target, handle, spec⟩ ∈ world.log := by
  unfold liveSpecs MemoryHost.Carries
  cases found : world.host.targets target with
  | none => simp [found]
  | some state => simp [found]

/-- In an orderly world the live sections of a combinator are one for each spec
that the ledger has for it. -/
theorem liveSpecs_perm (orderly : Orderly used wired world.scene)
    (accounted : Accounted world.scene)
    (numbered : Numbered world.host world.log) (few : Few world.log) :
    ((world.liveSpecs id target).map SectionSpec.key).Perm
      (world.engine.ledger.ownedSpecs id target).keys := by
  have tracked {placed : HostSection} (carried : world.host.Carries placed)
      (made : Event.created (.pass id) placed ∈ world.log) :=
    tracked_of_made orderly accounted numbered few carried made
  have distinct : ((world.liveSpecs id target).map SectionSpec.key).Nodup := by
    unfold liveSpecs
    split
    · exact List.nodup_nil
    next state found =>
      have sections : state.sections.toList.Nodup := by
        refine state.sections.ascending.imp fun {a b} below same => ?_
        simp [same] at below
      rw [List.map_map]
      refine List.Nodup.map_on ?_ (sections.filter _)
      intro a aMember b bMember same
      simp only [List.mem_filter, decide_eq_true_eq] at aMember bMember
      obtain ⟨left, leftTracked, _, leftPlaced⟩ :=
        tracked ⟨state, found, aMember.1⟩ aMember.2
      obtain ⟨right, rightTracked, _, rightPlaced⟩ :=
        tracked ⟨state, found, bMember.1⟩ bMember.2
      have leftPlace : left.place = ⟨target, a.2.key⟩ := by
        simp only [TrackedSection.placed, HostSection.mk.injEq] at leftPlaced
        rw [TrackedSection.place, leftPlaced.1, leftPlaced.2.2]
      have rightPlace : right.place = ⟨target, b.2.key⟩ := by
        simp only [TrackedSection.placed, HostSection.mk.injEq] at rightPlaced
        rw [TrackedSection.place, rightPlaced.1, rightPlaced.2.2]
      have keys : a.2.key = b.2.key := same
      have entries : left = right :=
        Ledger.eq_of_place_eq leftTracked rightTracked
          (by rw [leftPlace, rightPlace, keys])
      have places :=
        leftPlaced.symm.trans ((congrArg _ entries).trans rightPlaced)
      simp only [HostSection.mk.injEq, true_and] at places
      exact Prod.ext places.1 places.2
  refine (List.perm_ext_iff_of_nodup distinct (Ascending.keys_nodup _)).mpr
    fun key => ?_
  rw [← Ascending.contains_iff_mem_keys, Ledger.contains_ownedSpecs,
    List.mem_map]
  constructor
  · intro live
    obtain ⟨spec, member, rfl⟩ := live
    obtain ⟨handle, carried, made⟩ := mem_liveSpecs.mp member
    obtain ⟨entry, listed, owned, placed⟩ := tracked carried made
    simp only [TrackedSection.placed, HostSection.mk.injEq] at placed
    exact ⟨entry, listed,
      owned, by rw [TrackedSection.place, placed.1, placed.2.2]⟩
  · intro owns
    obtain ⟨entry, listed, rfl, place⟩ := owns
    obtain ⟨rfl, rfl⟩ := SlotKey.mk.inj place
    have carried := accounted.live entry listed (orderly.stands entry listed)
    have made := accounted.made entry (.inl listed)
    exact ⟨entry.spec, mem_liveSpecs.mpr ⟨entry.handle, carried, made⟩, rfl⟩

end Live

/-- The world right before a pass, and what is known of it and of the world
after it. -/
theorem PassOf.known (steady : (start limits ids).Steady operations)
    {id : CombinatorId} {after : MemoryWorld}
    (passed : PassOf id ((start limits ids).run operations) after)
    (few : Few after.log) :
    ∃ before tick, after = before.turn tick id ∧
      Upkept ((start limits ids).UsesIn operations)
        (EverWired operations) before ∧
      Accounted after.scene ∧ Numbered after.host after.log := by
  have upkept := steady.upkept (List.prefix_refl operations)
  have gone : (start limits ids).ForgetsOnlyGone operations := by
    intro earlier target later split
    exact absurd (by simp [split]) (steady.unforgotten target)
  have numbered := numbered_run limits ids operations
  have books (tick : UInt64) (sooner : List CombinatorId) :
      let world := (start limits ids).run operations
      let turned := (world.turns tick sooner).turn tick id
      Few turned.log →
        Accounted turned.scene ∧ Numbered turned.host turned.log := by
    intro world turned fewLater
    have happenings : Happenings (fun _ => False)
        (fun host target => host.targets target = none)
        world.scene turned.scene :=
      (turns_happen world tick sooner).trans (turn_happens _ tick id)
    have start :=
      accounted_run steady.unloaded gone
        (fewLater.of_earlier happenings.log_grows)
    exact ⟨happenings.keep Accounted Happening.accounted numbered
      fewLater start, happenings.numbered numbered⟩
  cases passed with
  | @alone tick =>
      exact ⟨_, tick, rfl, upkept, books tick [] few⟩
  | @round tick sooner later listed =>
      exact ⟨_, tick, rfl, upkept.turns steady.sole tick sooner,
        books tick sooner few⟩

/-- After every pass of a combinator in a steady run, whether it reconciled or
not, the ledger has for it what its rules ask for on what its channels carry
now: that on each target that it knows as wired, and nothing on others.  And the
sections that its passes made and that are still on the host are just these, one
for each spec. -/
theorem pass_follows_policy (steady : (start limits ids).Steady operations)
    {id : CombinatorId} {after : MemoryWorld}
    (passed : PassOf id ((start limits ids).run operations) after)
    (few : Few after.log) {combinator : Combinator}
    (held : after.engine.combinator? id = some combinator) :
    ∃ wired, combinator.wired = some wired ∧
      (∀ target ∈ wired, (after.engine.ledger.ownedSpecs id target).keys =
        (combinator.policy (after.host.channelsOf id)).keys) ∧
      (∀ target, target ∉ wired → after.engine.ledger.ownedSpecs id target =
        .empty) ∧
      ∀ target, ((after.liveSpecs id target).map SectionSpec.key).Perm
        (after.engine.ledger.ownedSpecs id target).keys := by
  obtain ⟨before, tick, rfl, upkept, accounted, numbered⟩ :=
    passed.known steady few
  cases found : before.engine.combinator? id with
  | none =>
      rw [turn_of_none tick found, found] at held
      cases held
  | some old =>
      have orderly := (upkept.turn steady.sole tick id).orderly
      have outcome := upkept.outcome found tick
      have engine := turn_of_some tick found
      obtain ⟨scene, edits, turned⟩ := turn_edits tick found
      have named := Engine.combinator?_id found
      rcases ran : old.pass tick before.engine.ledger before.host with
        ⟨report, next, ledger, host⟩
      rw [ran] at outcome engine
      simp only at outcome engine
      have sameId : next.id = id := outcome.id.trans named
      have same : next = combinator := by
        rw [engine] at held
        have put :=
          (Engine.combinator?_putCombinator before.engine next id).symm.trans
            held
        rw [if_pos sameId] at put
        exact Option.some.inj put
      subst same
      have channels : (before.turn tick id).host.channelsOf id =
          before.host.channelsOf id := by
        have sameHost : (before.turn tick id).host = scene.host :=
          congrArg Scene.host turned
        have sameChannels : scene.host.channels = before.host.channels :=
          edits.frame.1
        rw [sameHost, MemoryHost.channelsOf,
          MemoryHost.channelsOf, sameChannels]
      have owns (target : TargetId) (key : SpecKey) :
          ((before.turn tick id).engine.ledger.ownedSpecs id target).contains
            key = true ↔
              target ∈ old.wiredOr (before.host.wiring id) ∧
              (next.policy
                ((before.turn tick id).host.channelsOf id)).contains key =
                true := by
        rw [Ledger.contains_ownedSpecs, channels, ← outcome.policy, engine]
        exact named ▸ outcome.owns target key
      refine ⟨_, outcome.wired, ?_, ?_, ?_⟩
      · intro target wired
        rw [Ascending.keys_eq_iff]
        intro key
        simp [owns, wired]
      · intro target unwired
        apply Ascending.eq_empty_of_contains
        intro key
        simp [owns, unwired]
      · intro target
        exact liveSpecs_perm orderly accounted numbered few

theorem Uses.held {world : MemoryWorld} {id : CombinatorId} {key : SpecKey}
    (uses : world.Uses id key) : id ∈ world.engine.combinatorIds := by
  obtain ⟨combinator, found, _⟩ := uses
  have member := (Ascending.find?_eq_some_iff.mp found).1
  exact List.mem_map.mpr ⟨combinator, member, Engine.combinator?_id found⟩

/-- A pass that has nothing to do leaves the iron of the one before. -/
theorem pass_follows_policy_again :
    let after := ((start .default ⟨0⟩).run ironRun).turn 6 ⟨7⟩
    ∃ combinator wired, after.engine.combinator? ⟨7⟩ = some combinator ∧
      combinator.wired = some wired ∧
      (∀ target ∈ wired, (after.engine.ledger.ownedSpecs ⟨7⟩ target).keys =
        (combinator.policy (after.host.channelsOf ⟨7⟩)).keys) ∧
      ∀ target, ((after.liveSpecs ⟨7⟩ target).map SectionSpec.key).Perm
        (after.engine.ledger.ownedSpecs ⟨7⟩ target).keys := by
  have moments (reached : List (Operation HostChange))
      (sooner : reached <+: ironRun) :
      (∀ target, EverWired reached target →
        ((start .default ⟨0⟩).run reached).host.Accepts target) ∧
      ∀ id ∈ ((start .default ⟨0⟩).run reached).engine.combinatorIds,
        id = ⟨7⟩ := by
    simp only [ironRun, List.prefix_cons_iff, List.prefix_nil] at sooner
    rcases sooner with
      rfl | ⟨_, rfl, rfl | ⟨_, rfl, rfl | ⟨_, rfl, rfl | ⟨_, rfl, rfl⟩⟩⟩⟩
    · exact ⟨by simp [EverWired], by decide +kernel⟩
    · exact ⟨by simp [EverWired], by decide +kernel⟩
    · refine ⟨?_, by decide +kernel⟩
      simp only [EverWired, List.mem_cons, Operation.change.injEq,
        HostChange.connect.injEq, reduceCtorEq, List.not_mem_nil,
        or_false, false_or]
      rintro _ ⟨_, rfl, rfl⟩
      decide +kernel
    · refine ⟨?_, by decide +kernel⟩
      simp only [EverWired, List.mem_cons, Operation.change.injEq,
        HostChange.connect.injEq, reduceCtorEq, List.not_mem_nil,
        or_false, false_or]
      rintro _ ⟨_, rfl, rfl⟩
      decide +kernel
    · refine ⟨?_, by decide +kernel⟩
      simp only [EverWired, List.mem_cons, Operation.change.injEq,
        HostChange.connect.injEq, reduceCtorEq, List.not_mem_nil,
        or_false, false_or]
      rintro _ ⟨_, rfl, rfl⟩
      decide +kernel
  have steady : (start .default ⟨0⟩).Steady ironRun := by
    constructor
    · simp [ironRun]
    · simp [ironRun]
    · simp [ironRun]
    · exact fun reached sooner => (moments reached sooner).1
    · intro earlier target later split
      cases earlier with
      | nil => simp [EverWired]
      | cons first rest =>
          have listed : Operation.change (.addTarget target) ∈
              ironRun.tail := by
            rw [split]
            simp
          simp [ironRun] at listed
    · intro reached reached' sooner sooner' id id' key uses uses'
      rw [(moments reached sooner).2 id uses.held,
        (moments reached' sooner').2 id' uses'.held]
  have some :
      ((((start .default ⟨0⟩).run ironRun).turn 6 ⟨7⟩).engine.combinator?
        ⟨7⟩).isSome =
        true := by decide +kernel
  obtain ⟨combinator, held⟩ := Option.isSome_iff_exists.mp some
  obtain ⟨wired, known, onWired, _, live⟩ :=
    pass_follows_policy steady .alone (by unfold Few; decide +kernel) held
  exact ⟨combinator, wired, held, known, onWired, live⟩

end World

end CircuitSections
