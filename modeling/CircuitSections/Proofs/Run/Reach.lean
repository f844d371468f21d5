import CircuitSections.Proofs.Combinator.Contents
import CircuitSections.Proofs.Run.Orderly
import CircuitSections.Proofs.Run.Ownership

/-!
# Reached worlds

Several engines may work on one host, one at a time: an engine is started while
sections of an earlier one are still there, loads what that one saved, and
either may go on later.  As long as only entries are loaded that some engine
tracked on this host, handles tell who made a section in all of these worlds,
and no combinator has a target wired twice.
-/

namespace CircuitSections

/-- An operation loads only entries that one of the engines tracks. -/
def Operation.LoadsFrom (engines : List Engine) : Operation HostChange → Prop
  | .restoreLedger entries =>
    ∀ entry ∈ entries, ∃ engine ∈ engines, entry ∈ engine.ledger.entries
  | _ => True

/-- What is remembered of a section that somebody else adds to the host. -/
def Event.ofAddition (target : TargetId) (spec : SectionSpec) :
    Except HostError SectionHandle → List Event
  | .ok handle => [.created .hand ⟨target, handle, spec⟩]
  | .error _ => []

namespace World

/-- The worlds that engines reach over a host, with the engines as they were
before. -/
inductive Reached : List Engine → MemoryWorld → Prop
  | start (limits : Limits) (ids : RuleIdSupply) : Reached [] (start limits ids)
  | perform {past : List Engine} {world : MemoryWorld}
      (operation : Operation HostChange) :
      Reached past world → operation.LoadsFrom (world.engine :: past) →
      Reached (world.engine :: past) (world.perform operation)
  /-- A new engine takes over. -/
  | create {past : List Engine} {world : MemoryWorld} (limits : Limits)
      (ids : RuleIdSupply) :
      Reached past world →
      Reached (world.engine :: past) { world with
        engine := { Engine.empty ids with limits } }
  /-- An engine goes on as it was. -/
  | resume {past : List Engine} {world : MemoryWorld} {engine : Engine} :
      Reached past world → engine ∈ past →
      Reached (world.engine :: past) { world with engine }
  /-- Somebody else adds a section to the host. -/
  | added {past : List Engine} {world : MemoryWorld} (target : TargetId)
      (spec : SectionSpec) :
      Reached past world →
      Reached (world.engine :: past)
        { world with
          host := (world.host.addSection target spec).2
          log := world.log ++ Event.ofAddition target spec
            (world.host.addSection target spec).1 }
  /-- Somebody else removes a section from the host. -/
  | removed {past : List Engine} {world : MemoryWorld} (target : TargetId)
      (handle : SectionHandle) :
      Reached past world →
      Reached (world.engine :: past)
        { world with host := (world.host.removeSection target handle).2 }

/-! ### What combinators know of their wiring -/

section Wiring

variable {world : MemoryWorld} {id : CombinatorId} {combinator : Combinator}

/-- What a combinator knows of its wiring is what it knew in the world before,
or what the host tells there. -/
def Knows (world : MemoryWorld) (id : CombinatorId)
    (combinator : Combinator) : Prop :=
  combinator.wired = none ∨ combinator.wired = some (world.host.wiring id) ∨
    ∃ old, world.engine.combinator? id = some old ∧ combinator.wired = old.wired

theorem knows_of_held (found : world.engine.combinator? id = some combinator) :
    world.Knows id combinator := .inr (.inr ⟨combinator, found, rfl⟩)

theorem turn_frame (world : MemoryWorld) (tick : UInt64) (id : CombinatorId) :
    (world.turn tick id).host.channels = world.host.channels ∧
      (world.turn tick id).host.wiring = world.host.wiring := by
  cases found : world.engine.combinator? id with
  | none =>
      rw [turn_of_none tick found]
      exact ⟨rfl, rfl⟩
  | some combinator =>
      obtain ⟨scene, edits, turned⟩ := turn_edits tick found
      have asked : (world.turn tick id).host = scene.host :=
        congrArg Scene.host turned
      rw [asked]
      exact edits.frame

theorem turns_wiring (world : MemoryWorld) (tick : UInt64)
    (ids : List CombinatorId) :
    (world.turns tick ids).host.wiring = world.host.wiring :=
  turns_induction (fun after => after.host.wiring = world.host.wiring) rfl
    (fun between id same => (turn_frame between tick id).2.trans same) ids

theorem turn_knows {tick : UInt64} {other : CombinatorId}
    (found : (world.turn tick other).engine.combinator? id = some combinator) :
    world.Knows id combinator := by
  cases held : world.engine.combinator? other with
  | none =>
      rw [turn_of_none tick held] at found
      exact knows_of_held found
  | some before =>
      have named := Engine.combinator?_id held
      rw [turn_of_some tick held] at found
      rcases Engine.held_putCombinator found with ⟨rfl, same⟩ | ⟨_, old⟩
      · rw [Combinator.pass_id, named] at same
        subst same named
        rw [Knows, Combinator.pass_combinator world.host.answers rfl]
        cases known : before.wired with
        | none => exact .inr (.inl (by simp [Combinator.wiredOr, known]))
        | some targets =>
            exact .inr
              (.inr ⟨before, held, by simp [Combinator.wiredOr, known]⟩)
      · exact knows_of_held old

theorem turns_knows {tick : UInt64} {ids : List CombinatorId}
    (found : (world.turns tick ids).engine.combinator? id = some combinator) :
    world.Knows id combinator := by
  induction ids generalizing world with
  | nil => exact knows_of_held found
  | cons first rest ih =>
      rcases ih found with unknown | told | ⟨old, there, same⟩
      · exact .inl unknown
      · rw [(turn_frame world tick first).2] at told
        exact .inr (.inl told)
      · rcases turn_knows there with unknown | told | ⟨older, before, alike⟩
        · exact .inl (same.trans unknown)
        · exact .inr (.inl (same.trans told))
        · exact .inr (.inr ⟨older, before, same.trans alike⟩)

/-- No operation gives a combinator a wiring from elsewhere. -/
theorem perform_knows {operation : Operation HostChange}
    (found : (world.perform operation).engine.combinator? id =
      some combinator) : world.Knows id combinator := by
  have of_put {engine : Engine} {put : Combinator}
      (unknown : put.id = id → world.Knows id put)
      (same : engine.combinators = (world.engine.putCombinator put).combinators)
      (there : engine.combinator? id = some combinator) :
        world.Knows id combinator := by
    have held : (world.engine.putCombinator put).combinator? id =
        some combinator := by
      rw [Engine.combinator?, ← same]
      exact there
    rcases Engine.held_putCombinator held with ⟨rfl, named⟩ | ⟨_, old⟩
    · exact unknown named
    · exact knows_of_held old
  cases operation with
  | add other configs =>
      rcases world.engine.add_cases other configs with
        ⟨_, refused⟩ | ⟨put, ids, added, _, _, wired, _⟩
      · simp only [perform, refused] at found
        exact knows_of_held found
      · simp only [perform, added] at found
        exact of_put (fun _ => .inl wired) rfl found
  | addRestored other snapshots =>
      rcases world.engine.addRestored_cases other snapshots with
        ⟨_, refused⟩ | ⟨put, added, _, wired, _⟩
      · simp only [perform, refused] at found
        exact knows_of_held found
      · simp only [perform, added] at found
        exact of_put (fun _ => .inl wired) rfl found
  | setRules other configs =>
      rcases world.engine.setRules_cases other configs with
        ⟨_, refused⟩ | ⟨old, put, ids, given, there, named, wired, _⟩
      · simp only [perform, refused] at found
        exact knows_of_held found
      · simp only [perform, given] at found
        refine of_put (fun same => ?_) rfl found
        rw [← same, named]
        exact .inr (.inr ⟨old, there, wired⟩)
  | noteWiringChange other =>
      rcases world.engine.noteWiringChange_cases other with ⟨_, refused⟩ |
        ⟨put, there, forgot⟩
      · simp only [perform, refused] at found
        exact knows_of_held found
      · simp only [perform, forgot] at found
        exact of_put (fun _ => .inl rfl) rfl found
  | noteDestroyed target =>
      have mapped := Ascending.find?_mapKeeping world.engine.combinators
        Combinator.forgetWiring
        (fun _ => rfl) id
      obtain ⟨old, _, rfl⟩ :=
        Option.map_eq_some_iff.mp (mapped.symm.trans found)
      exact .inl rfl
  | restoreLedger entries => exact knows_of_held found
  | evaluate other tick => exact turn_knows found
  | evaluateAll tick =>
      rw [perform_evaluateAll] at found
      exact turns_knows found
  | remove other tick => exact knows_of_held (Engine.held_remove found).2
  | change change => exact knows_of_held found

end Wiring

end World

theorem HostChange.wiring_nodup {host : MemoryHost}
    (once : ∀ id, (host.wiring id).Nodup) (change : HostChange)
    (id : CombinatorId) : ((change.apply host).wiring id).Nodup := by
  have updated (target : TargetId) (change : Target → Target) :
      ((host.updateTarget target change).wiring id).Nodup := by
    unfold MemoryHost.updateTarget
    split
    · exact once id
    · exact once id
  cases change with
  | connect combinator target =>
      simp only [apply, MemoryHost.connect]
      split
      · exact once id
      next absent =>
          simp only [replaceAt]
          split
          · refine (once combinator).append (List.nodup_singleton target) ?_
            simpa using absent
          · exact once id
  | disconnect combinator target =>
      simp only [apply, MemoryHost.disconnect, replaceAt]
      split
      · exact (once combinator).filter _
      · exact once id
  | reject target reason => exact updated target _
  | accept target => exact updated target _
  | addManualSection target spec =>
      cases answered : (host.addManualSection target spec).1 with
      | none =>
          simp only [apply, MemoryHost.addManualSection_none answered]
          exact once id
      | some handle =>
          obtain ⟨state, _, made⟩ := MemoryHost.addManualSection_some answered
          simp only [apply, (Prod.mk.inj made).2]
          exact once id
  | addTarget | addPlainTarget | destroyTarget | setChannel | setSignal =>
      exact once id

namespace World

theorem perform_wiring_nodup {world : MemoryWorld}
    (once : ∀ id, (world.host.wiring id).Nodup)
    (operation : Operation HostChange) (id : CombinatorId) :
    ((world.perform operation).host.wiring id).Nodup := by
  cases operation with
  | evaluate other tick =>
      show ((world.turn tick other).host.wiring id).Nodup
      rw [(turn_frame world tick other).2]
      exact once id
  | evaluateAll tick =>
      rw [perform_evaluateAll, turns_wiring]
      exact once id
  | remove other tick =>
      have same : (world.perform (.remove other tick)).host.wiring =
          world.host.wiring :=
        (world.remove_edits other tick).frame.2
      rw [same]
      exact once id
  | change change => exact change.wiring_nodup once id
  | add | addRestored | setRules | noteWiringChange | noteDestroyed |
      restoreLedger => exact once id

/-! ### What holds in reached worlds -/

/-- What the engine tracks was made by those whom it names, and its combinators
know no target twice. -/
structure SoundIn (log : List Event) (engine : Engine) : Prop where
  attributed : ∀ entry ∈ engine.ledger.entries, entry.AttributedIn log
  known : ∀ id combinator, engine.combinator? id = some combinator →
    ∀ targets, combinator.wired = some targets → targets.Nodup

theorem SoundIn.empty (log : List Event) (limits : Limits)
    (ids : RuleIdSupply) :
    SoundIn log { Engine.empty ids with limits } where
  attributed _ member := absurd member List.not_mem_nil
  known _ _ found := nomatch found

theorem SoundIn.of_earlier {log later : List Event} {engine : Engine}
    (sound : SoundIn log engine) (earlier : log <+: later) :
    SoundIn later engine where
  attributed entry member := (sound.attributed entry member).of_earlier earlier
  known := sound.known

/-- Handles are numbered, nothing is wired twice, and all engines are sound. -/
structure Sound (past : List Engine) (world : MemoryWorld) : Prop where
  numbered : Numbered world.host world.log
  wiring : ∀ id, (world.host.wiring id).Nodup
  engines : ∀ engine ∈ world.engine :: past, SoundIn world.log engine

namespace Sound

variable {past : List Engine} {world : MemoryWorld}

theorem start (limits : Limits) (ids : RuleIdSupply) :
    Sound [] (start limits ids) where
  numbered := Numbered.start
  wiring _ := List.nodup_nil
  engines engine member := by
    rw [List.mem_singleton.mp member]
    exact .empty [] limits ids

theorem knows (sound : Sound past world) {id : CombinatorId}
    {combinator : Combinator} (known : world.Knows id combinator) :
    ∀ targets, combinator.wired = some targets →
      targets.Nodup := by
  intro targets wired
  rcases known with unknown | told | ⟨old, found, same⟩
  · rw [unknown] at wired
    cases wired
  · rw [told] at wired
    cases wired
    exact sound.wiring id
  · exact (sound.engines world.engine List.mem_cons_self).known id
      old found targets
      (same.symm.trans wired)

theorem attributed (sound : Sound past world) {operation : Operation HostChange}
    (loads : operation.LoadsFrom (world.engine :: past)) :
    Attributed (world.perform operation).scene := by
  have before : Attributed world.scene :=
    (sound.engines world.engine List.mem_cons_self).attributed
  by_cases loading : ∃ entries, operation = .restoreLedger entries
  · obtain ⟨entries, rfl⟩ := loading
    rw [perform_restoreLedger]
    intro entry member
    obtain ⟨engine, listed, tracked⟩ :=
      loads entry (Ledger.mem_of_mem_ofEntries member)
    exact (sound.engines engine listed).attributed entry tracked
  · have allowed :
        operation.Allowed (fun _ => False) (fun _ _ => True) world.host := by
      cases operation with
      | restoreLedger entries => exact absurd ⟨entries, rfl⟩ loading
      | _ => trivial
    exact (perform_happens world operation allowed).attributed
      (fun _ loadable => loadable) before

theorem perform (sound : Sound past world) (operation : Operation HostChange)
    (loads : operation.LoadsFrom (world.engine :: past)) :
    Sound (world.engine :: past) (world.perform operation) where
  numbered := (perform_happens_freely world operation).numbered sound.numbered
  wiring := perform_wiring_nodup sound.wiring operation
  engines engine member := by
    rcases List.mem_cons.mp member with rfl | earlier
    · exact ⟨sound.attributed loads, fun id combinator found =>
        sound.knows (perform_knows found)⟩
    · exact (sound.engines engine earlier).of_earlier
        (perform_log_grows world operation)

theorem turnOver (sound : Sound past world) {engine : Engine}
    (next : SoundIn world.log engine) :
    Sound (world.engine :: past) { world with engine } where
  numbered := sound.numbered
  wiring := sound.wiring
  engines other member := by
    rcases List.mem_cons.mp member with rfl | earlier
    · exact next
    · exact sound.engines other earlier

theorem rehost (sound : Sound past world) {host : MemoryHost}
    (notes : List Event) (numbered : Numbered host (world.log ++ notes))
    (wiring : host.wiring = world.host.wiring) :
    Sound (world.engine :: past) { world with
      host, log := world.log ++ notes } where
  numbered := numbered
  wiring id := by
    rw [wiring]
    exact sound.wiring id
  engines engine member := by
    have known : SoundIn world.log engine := by
      rcases List.mem_cons.mp member with rfl | earlier
      · exact sound.engines _ List.mem_cons_self
      · exact sound.engines engine earlier
    exact known.of_earlier (List.prefix_append _ _)

theorem added (sound : Sound past world) (target : TargetId)
    (spec : SectionSpec) :
    Sound (world.engine :: past)
      { world with
        host := (world.host.addSection target spec).2
        log := world.log ++
          Event.ofAddition target spec
            (world.host.addSection target spec).1 } := by
  rcases answered : world.host.addSection target spec with ⟨answer, host⟩
  cases answer with
  | ok handle =>
      obtain ⟨state, found, made⟩ := MemoryHost.addSection_ok answered
      obtain ⟨rfl, rfl⟩ := Prod.mk.inj made
      exact sound.rehost _ (sound.numbered.create found spec .hand) rfl
  | error cause =>
      obtain rfl := MemoryHost.addSection_error answered
      have same : creations (world.log ++ []) = creations world.log := by
        rw [List.append_nil]
      exact sound.rehost []
        (sound.numbered.of_fewer rfl same fun _ carried => carried) rfl

theorem removed (sound : Sound past world) (target : TargetId)
    (handle : SectionHandle) :
    Sound (world.engine :: past)
      { world with host := (world.host.removeSection target handle).2 } := by
  have silent (host : MemoryHost) (numbered : Numbered host world.log)
      (wiring : host.wiring = world.host.wiring) :
      Sound (world.engine :: past) { world with host } := by
    have sound := sound.rehost [] (by rwa [List.append_nil]) wiring
    rwa [List.append_nil] at sound
  rcases answered : world.host.removeSection target handle with ⟨answer, host⟩
  cases answer with
  | ok _ =>
      obtain ⟨next, wiring, _⟩ := MemoryHost.removeSection_frame answered
      exact silent host (sound.numbered.of_fewer next rfl fun _ carried =>
        ((MemoryHost.carries_removeSection answered).mp carried).1) wiring
  | error cause =>
      obtain rfl := MemoryHost.removeSection_error answered
      exact silent _ sound.numbered rfl

end Sound

section Turns

variable {past : List Engine} {world : MemoryWorld} {combinator : Combinator}
  {tick : UInt64}

theorem Sound.below (sound : Sound past world) (few : Few world.log) :
    world.host.Below := by
  intro target entry member
  obtain ⟨maker, created⟩ :=
    sound.numbered.made _ (MemoryHost.mem_sectionList.mp member)
  exact sound.numbered.below_next few created

theorem Sound.issued (sound : Sound past world) (few : Few world.log)
    (list : List TargetId) :
    world.engine.ledger.Issued world.host list := by
  intro entry member _
  obtain ⟨spec, created⟩ :=
    (sound.engines world.engine List.mem_cons_self).attributed entry member
  exact sound.numbered.below_next few created

theorem Sound.once (sound : Sound past world)
    (found : world.engine.combinator? combinator.id = some combinator) :
    (combinator.wiredOr (world.host.wiring combinator.id)).Nodup := by
  have known := (sound.engines world.engine List.mem_cons_self).known
    combinator.id combinator found
  unfold Combinator.wiredOr
  cases cached : combinator.wired with
  | none => exact sound.wiring combinator.id
  | some targets => exact known targets cached

theorem turn_made (tick : UInt64)
    (found : world.engine.combinator? combinator.id = some combinator) :
    (creations (world.turn tick combinator.id).log).length =
      (creations world.log).length +
      (combinator.pass tick world.engine.ledger
        world.host).1.injected.length := by
  rw [turn_of_some tick found, ← Engine.addedBy_pairs _ tick found]
  simp [creations, Event.creation?, List.filterMap_map, Function.comp_def]

/-- While sections are few, a turn edits the host as its report tells. -/
theorem Sound.edited_turn (sound : Sound past world)
    (found : world.engine.combinator? combinator.id = some combinator)
    (few : Few (world.turn tick combinator.id).log) :
    world.host.Edited (world.turn tick combinator.id).host
      ((combinator.pass tick world.engine.ledger world.host).1.gone
        world.engine.ledger)
      (combinator.pass tick world.engine.ledger world.host).1.injected := by
  rw [Few, turn_made tick found] at few
  have before : Few world.log := Nat.lt_of_le_of_lt (Nat.le_add_right _ _) few
  have edited :=
    Combinator.edited_pass (sound.once found) tick world.engine.ledger
      (sound.below before) (sound.issued before) (by
        rw [sound.numbered.next_toNat before]
        exact few)
  rwa [turn_of_some tick found]

end Turns

theorem Reached.sound {past : List Engine} {world : MemoryWorld}
    (reached : Reached past world) :
    Sound past world := by
  induction reached with
  | start limits ids => exact .start limits ids
  | perform operation _ loads ih => exact ih.perform operation loads
  | create limits ids _ ih =>
      exact ih.turnOver (.empty _ limits ids)
  | resume _ earlier ih =>
      exact ih.turnOver (ih.engines _ (List.mem_cons_of_mem _ earlier))
  | added target spec _ ih => exact ih.added target spec
  | removed target handle _ ih => exact ih.removed target handle

theorem Sound.turns {past : List Engine} {world : MemoryWorld}
    (sound : Sound past world) (tick : UInt64) (ids : List CombinatorId) :
    ∃ others, Sound others (world.turns tick ids) := by
  refine turns_induction (fun after => ∃ others, Sound others after)
    ⟨past, sound⟩ ?_ ids
  rintro between id ⟨others, known⟩
  exact ⟨_, known.perform (.evaluate id tick) trivial⟩

theorem Reached.run {past : List Engine} {world : MemoryWorld}
    (reached : Reached past world) {operations : List (Operation HostChange)}
    (loads : ∀ operation ∈ operations, operation.LoadsFrom past) :
    ∃ others, Reached others (world.run operations) := by
  induction operations generalizing past world with
  | nil => exact ⟨past, reached⟩
  | cons operation rest ih =>
      have more {later : Operation HostChange} (known : later.LoadsFrom past) :
          later.LoadsFrom (world.engine :: past) := by
        cases later with
        | restoreLedger entries =>
            intro entry member
            obtain ⟨engine, listed, tracked⟩ := known entry member
            exact ⟨engine, List.mem_cons_of_mem _ listed, tracked⟩
        | _ => trivial
      obtain ⟨first, later⟩ := List.forall_mem_cons.mp loads
      exact ih (reached.perform operation (more first))
        fun other member => more (later other member)

end World

end CircuitSections
