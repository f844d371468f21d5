import CircuitSections.Proofs.Engine.FirstPass
import CircuitSections.Proofs.Host.Watched
import CircuitSections.Proofs.Run.Memory

/-!
# The wiring of the right moment

Of operations on a host of any kind it is told what matters to the wiring of
combinators, and which questions about it are asked.  What every combinator
remembers is at all times what the story tells of it (`World.run_follows`), so a
pass acts on the wiring that was read first since it was last to be read again,
and reconciles if this is not the wiring with which the combinator last
reconciled, whatever happened in between.
-/

namespace CircuitSections

/-! ### What combinators remember -/

/-- What a combinator remembers of its wiring and of its rules is what the story
tells. -/
structure Combinator.Follows (combinator : Combinator)
    (story : Story) : Prop where
  wired : combinator.wired = story.wiring combinator.id
  reconciled : combinator.reconciled =
    TargetSet.ofList (story.used combinator.id)
  rulesChanged : combinator.rulesChanged = story.ruled combinator.id

/-- The one combinator that a moment is about, unless it is about all. -/
def Moment.about? : Moment → Option CombinatorId
  | .registered id | .ruled id | .rewired id | .began id | .asked id _ =>
    some id
  | .destroyed _ => none
  | .passed report => some report.combinator

namespace Moment

variable {id other : CombinatorId} {moment : Moment}

/-- A moment that is about another combinator tells nothing of this one. -/
theorem tells_of_other (about : moment.about? = some other)
    (apart : other ≠ id) :
    moment.invalidates id = false ∧ moment.answer? id = none ∧
      moment.settles id = false ∧ moment.rules id = false := by
  cases moment <;> cases about <;>
    simp [invalidates, answer?, settles, rules, apart]

end Moment

namespace Combinator.Follows

variable {combinator : Combinator} {story : Story} {moments : Story}

/-- Moments that are about another combinator do not matter. -/
theorem of_others (follows : combinator.Follows story) {other : CombinatorId}
    (apart : other ≠ combinator.id)
    (others : ∀ moment ∈ moments, moment.about? = some other) :
    combinator.Follows (story ++ moments) := by
  have tells (moment : Moment) (member : moment ∈ moments) :=
    Moment.tells_of_other (others moment member) apart
  have settles : ∀ moment ∈ moments, moment.settles combinator.id = false :=
    fun moment member => (tells moment member).2.2.1
  refine ⟨?_, ?_, ?_⟩
  · have answers : moments.findSome? (Moment.answer? combinator.id) = none :=
      List.findSome?_eq_none_iff.mpr fun moment member =>
        (tells moment member).2.1
    rw [Story.wiring_append fun moment member => (tells moment member).1,
      answers, Option.or_none]
    exact follows.wired
  · rw [Story.used_append settles]
    exact follows.reconciled
  · have rules : moments.any (Moment.rules combinator.id) = false := by
      apply List.any_eq_false.mpr
      intro moment member
      rw [(tells moment member).2.2.2]
      exact Bool.false_ne_true
    rw [Story.ruled_append settles, rules, Bool.or_false]
    exact follows.rulesChanged

/-- A combinator that comes in remembers nothing. -/
theorem registered (story : Story) (wired : combinator.wired = none)
    (reconciled : combinator.reconciled = .empty)
    (unchanged : combinator.rulesChanged = false) :
    combinator.Follows (story ++ [.registered combinator.id]) := by
  refine ⟨?_, ?_, ?_⟩
  · rw [wired, Story.wiring_concat (by simp [Moment.invalidates])]
  · rw [reconciled, Story.used_registered]
    rfl
  · rw [unchanged, Story.ruled_concat (by simp [Moment.settles])]

/-- A combinator whose rules were set remembers that, and all else as before. -/
theorem ruled {old : Combinator} (follows : old.Follows story)
    (named : combinator.id = old.id) (wired : combinator.wired = old.wired)
    (reconciled : combinator.reconciled = old.reconciled)
    (changed : combinator.rulesChanged = true) :
    combinator.Follows (story ++ [.ruled combinator.id]) := by
  refine ⟨?_, ?_, ?_⟩
  · rw [wired, follows.wired, named,
      Story.wiring_append (by simp [Moment.invalidates])]
    exact Option.or_none.symm
  · rw [reconciled, follows.reconciled, named,
      Story.used_append (by simp [Moment.settles])]
  · rw [changed, Story.ruled_append (by simp [Moment.settles])]
    simp [Moment.rules]

/-- A combinator that has to read its wiring again does not remember it. -/
theorem forgetWiring (follows : combinator.Follows story) {moment : Moment}
    (invalid : moment.invalidates combinator.id = true)
    (unsettling : moment.settles combinator.id = false)
    (still : moment.rules combinator.id = false) :
    combinator.forgetWiring.Follows (story ++ [moment]) := by
  have used : Story.used combinator.id (story ++ [moment]) =
      story.used combinator.id :=
    Story.used_append (by simpa using unsettling)
  have ruled : Story.ruled combinator.id (story ++ [moment]) =
      story.ruled combinator.id := by
    rw [Story.ruled_append (by simpa using unsettling)]
    simp [still]
  refine ⟨(Story.wiring_concat invalid).symm, ?_,
    follows.rulesChanged.trans ruled.symm⟩
  exact follows.reconciled.trans (congrArg TargetSet.ofList used.symm)

section Pass

variable {σ : Type} [ChannelReader σ] [WiringReader σ] [SectionEditor σ]

omit [SectionEditor σ] in
/-- A pass works with the first answer since the wiring was last to be read
again: with the one that is remembered, or else with the one that it gets
itself. -/
theorem wiring_question (follows : combinator.Follows story) (host : σ) :
    let targets := (combinator.passWiring host).1
    Story.wiring combinator.id
      (story ++ .began combinator.id :: combinator.question targets) =
        some targets := by
  intro targets
  unfold question
  cases known : combinator.wired with
  | some remembered =>
      have same : targets = remembered := passWiring_of_some known host
      rw [Story.wiring_append (by simp [Moment.invalidates]),
        ← follows.wired, known, same]
      rfl
  | none =>
      rw [Story.wiring_append (by simp [Moment.invalidates]),
        ← follows.wired, known]
      simp [List.findSome?_cons, Moment.answer?]

/-- After a pass a combinator remembers what the story tells, whether it
reconciled or not. -/
theorem pass (follows : combinator.Follows story) (tick : UInt64)
    (ledger : Ledger) (host : σ) :
    let asked := combinator.question (combinator.passWiring host).1
    (combinator.pass tick ledger host).2.1.Follows
      (story ++ (.began combinator.id :: asked) ++
        [.passed (combinator.pass tick ledger host).1]) := by
  intro asked
  obtain ⟨own, named, wired, reconciled, unchanged⟩ :=
    combinator.pass_remembers tick ledger host
  obtain ⟨reasons, _, _⟩ := combinator.pass_reconciles tick ledger host
  have wiring := follows.wiring_question host
  generalize combinator.pass tick ledger host = result at *
  have unsettled : ∀ moment ∈ .began combinator.id :: asked,
      moment.settles combinator.id = false := by
    intro moment member
    rcases List.mem_cons.mp member with rfl | question
    · rfl
    · rw [mem_question question]
      rfl
  have unruled : (.began combinator.id :: asked).any
      (Moment.rules combinator.id) = false := by
    simp only [asked, question]
    cases combinator.wired <;> simp [Moment.rules]
  refine ⟨?_, ?_, ?_⟩
  · rw [wired, named, Story.wiring_append (by simp [Moment.invalidates]),
      wiring]
    rfl
  · rw [reconciled, named]
    cases did : result.1.reconciled with
    | true => rw [Story.used_passed own did, wiring, Option.getD_some]
    | false =>
        have quiet : TargetSet.ofList (combinator.passWiring host).1 =
            combinator.reconciled := by
          apply Decidable.byContradiction
          intro apart
          rw [reasons.mpr (.inr (.inr apart))] at did
          cases did
        rw [Story.used_append (by simp [Moment.settles, did]),
          Story.used_append unsettled, quiet]
        exact follows.reconciled
  · rw [unchanged, named]
    cases did : result.1.reconciled with
    | true => rw [Story.ruled_concat (by simp [Moment.settles, own, did])]
    | false =>
        have quiet : combinator.rulesChanged = false := by
          apply eq_false_of_ne_true
          intro changed
          rw [reasons.mpr (.inr (.inl changed))] at did
          cases did
        rw [Story.ruled_append (by simp [Moment.settles, did]),
          Story.ruled_append unsettled, ← follows.rulesChanged, quiet, unruled]
        rfl

end Pass

end Combinator.Follows

/-- What every combinator remembers is what the story tells. -/
def Engine.Follows (engine : Engine) (story : Story) : Prop :=
  ∀ id combinator, engine.combinator? id = some combinator →
    combinator.Follows story

theorem Engine.Follows.put {engine : Engine} {story moments : Story}
    {combinator : Combinator} (follows : engine.Follows story)
    (own : ∀ moment ∈ moments, moment.about? = some combinator.id)
    (new : combinator.Follows (story ++ moments)) :
    (engine.putCombinator combinator).Follows (story ++ moments) := by
  intro id other held
  rcases held_putCombinator held with ⟨rfl, _⟩ | ⟨apart, earlier⟩
  · exact new
  · rw [← combinator?_id earlier] at apart
    exact (follows id other earlier).of_others apart own

/-! ### Questions -/

/-- The host is asked for a wiring in the middle of a pass that needs it, and
only if it was not asked since the wiring was last to be read again. -/
structure Story.Orderly (story : Story) : Prop where
  inside : ∀ before id targets after,
    story = before ++ .asked id targets :: after →
    ∃ earlier report later, before = earlier ++ [.began id] ∧
      after = .passed report :: later ∧
      report.combinator = id
  fresh : ∀ before id targets after,
    story = before ++ .asked id targets :: after →
    Story.wiring id before = none

namespace Story

variable {story moments before after : Story} {id : CombinatorId}
  {targets : List TargetId}

theorem split_of_calm (calm : ∀ moment ∈ moments, moment.asks = false)
    (split : story ++ moments = before ++ .asked id targets :: after) :
    ∃ rest, story = before ++ .asked id targets :: rest ∧
      after = rest ++ moments := by
  rcases List.append_eq_append_iff.mp split with ⟨others, _, among⟩ |
    ⟨others, earlier, later⟩
  · have listed : .asked id targets ∈ moments := by simp [among]
    cases calm _ listed
  · cases others with
    | nil =>
        have listed : .asked id targets ∈ moments := by
          rw [List.nil_append] at later
          simp [← later]
        cases calm _ listed
    | cons first rest =>
        rw [List.cons_append] at later
        obtain ⟨rfl, rest_eq⟩ := List.cons.inj later
        exact ⟨rest, earlier, rest_eq⟩

theorem Orderly.nil : Story.Orderly [] := by
  constructor
  · intro before id targets after split
    simp at split
  · intro before id targets after split
    simp at split

theorem Orderly.append (orderly : story.Orderly)
    (calm : ∀ moment ∈ moments, moment.asks = false) :
    Story.Orderly (story ++ moments) := by
  constructor
  · intro before id targets after split
    obtain ⟨rest, earlier, rfl⟩ := split_of_calm calm split
    obtain ⟨first, report, later, begun, rfl, own⟩ :=
      orderly.inside before id targets rest earlier
    exact ⟨first, report, later ++ moments, begun, rfl, own⟩
  · intro before id targets after split
    obtain ⟨rest, earlier, _⟩ := split_of_calm calm split
    exact orderly.fresh before id targets rest earlier

/-- A question after a pass is the question of this pass, or one from before. -/
theorem split_of_pass {report : PassReport} {other : CombinatorId}
    {answer : List TargetId}
    (split : story ++ [.began id, .asked id targets] ++ [.passed report] =
      before ++ .asked other answer :: after) :
    (before = story ++ [.began id] ∧ other = id ∧ after = [.passed report]) ∨
      ∃ rest, story = before ++ .asked other answer :: rest ∧
        after = rest ++ [.began id, .asked id targets] ++ [.passed report] := by
  obtain ⟨rest, earlier, rfl⟩ := split_of_calm (by simp [Moment.asks]) split
  rw [List.append_cons] at earlier
  rcases List.eq_nil_or_concat rest with rfl | ⟨others, last, rfl⟩
  · obtain ⟨begun, question⟩ := List.append_inj' earlier rfl
    obtain ⟨rfl, _⟩ := Moment.asked.inj (List.head_eq_of_cons_eq question)
    exact .inl ⟨begun.symm, rfl, rfl⟩
  · rw [List.concat_eq_append, ← List.cons_append,
      ← List.append_assoc] at earlier
    obtain ⟨begun, question⟩ := List.append_inj' earlier rfl
    obtain ⟨first, before_eq, rfl⟩ :=
      split_of_calm (by simp [Moment.asks]) begun
    refine .inr ⟨first, before_eq, ?_⟩
    rw [List.concat_eq_append, ← question]
    simp

theorem Orderly.pass (orderly : story.Orderly)
    (unknown : story.wiring id = none) {report : PassReport}
    (own : report.combinator = id) :
    Story.Orderly
      (story ++ [.began id, .asked id targets] ++ [.passed report]) := by
  constructor
  · intro before other answer after split
    rcases split_of_pass split with ⟨rfl, rfl, rfl⟩ | ⟨rest, earlier, rfl⟩
    · exact ⟨story, report, [], rfl, rfl, own⟩
    · obtain ⟨first, passed, later, begun, rfl, same⟩ :=
        orderly.inside before other answer rest earlier
      exact ⟨first, passed, _, begun, rfl, same⟩
  · intro before other answer after split
    rcases split_of_pass split with ⟨rfl, rfl, _⟩ | ⟨rest, earlier, _⟩
    · rw [wiring_append (by simp [Moment.invalidates]), unknown]
      rfl
    · exact orderly.fresh before other answer rest earlier

/-- Between two questions for one wiring it was to be read again. -/
theorem Orderly.between (orderly : story.Orderly) {between : Story}
    {first second : List TargetId}
    (split : story =
      before ++ .asked id first :: (between ++ .asked id second :: after)) :
    ∃ moment ∈ between, moment.invalidates id = true := by
  have unknown :=
    orderly.fresh (before ++ .asked id first :: between) id second after
      (by rw [split, List.append_assoc, List.cons_append])
  apply Decidable.byContradiction
  intro none
  have others : ∀ moment ∈ .asked id first :: between,
      moment.invalidates id = false := by
    intro moment member
    rcases List.mem_cons.mp member with rfl | later
    · rfl
    · apply eq_false_of_ne_true
      exact fun invalid => none ⟨moment, later, invalid⟩
  rw [wiring_append others] at unknown
  simp [Moment.answer?] at unknown

end Story

/-! ### What is told of operations -/

section Told

variable {σ : Type} [ChannelReader σ] [WiringReader σ] [SectionEditor σ]

/-- What matters to the wiring in an operation, and the questions about it that
a host gets when it is watched. -/
def Moment.told (engine : Engine) (host : σ) : Operation (σ → σ) → Story
  | .add id _ => [.registered id, .ruled id]
  | .addRestored id _ => [.registered id]
  | .setRules id _ => [.ruled id]
  | .noteWiringChange id => [.rewired id]
  | .noteDestroyed target => [.destroyed target]
  | .evaluate id tick =>
    let (answer, _, watched) := engine.evaluate id tick (Watched.opened host)
    .began id :: (watched.story ++ answer.toOption.toList.map .passed)
  | .remove id tick => (engine.remove id tick (Watched.opened host)).2.2.story
  | .restoreLedger _ | .evaluateAll _ | .change _ => []

/-- Hosts of any kind may be told of, and change in any way. -/
instance : Chronicle σ Moment (σ → σ) where
  changed change host := change host
  told := Moment.told

theorem Moment.told_evaluate {engine : Engine} {id : CombinatorId}
    {combinator : Combinator} (tick : UInt64) (host : σ)
    (held : engine.combinator? id = some combinator) :
    Moment.told engine host (.evaluate id tick) =
      .began id :: (combinator.question (combinator.passWiring host).1 ++
        [.passed (combinator.pass tick engine.ledger host).1]) := by
  simp only [told, Engine.evaluate_of_some held, Combinator.pass_watched]
  rfl

theorem Moment.told_remove (engine : Engine) (host : σ) (id : CombinatorId)
    (tick : UInt64) :
    Moment.told engine host (.remove id tick) = [] := by
  simp only [told, Engine.remove, Watched.tearDown_eq]
  split
  · rfl
  · rfl

end Told

namespace World

variable {σ : Type} [ChannelReader σ] [WiringReader σ] [SectionEditor σ]

/-- A pass is told from its beginning to its end. -/
theorem turn_told {world : World σ Moment} {id : CombinatorId}
    {combinator : Combinator} (tick : UInt64)
    (held : world.engine.combinator? id = some combinator) :
    world.turn tick id =
      let (report, after, ledger, host) :=
        combinator.pass tick world.engine.ledger world.host
      let asked := combinator.question (combinator.passWiring world.host).1
      { engine := { world.engine.putCombinator after with ledger }
        host
        log := world.log ++ (.began id :: asked) ++ [.passed report]
        reports := world.reports ++ [report] } := by
  rw [turn_of_held tick held]
  simp only [Chronicle.told, Moment.told_evaluate tick world.host held,
    List.append_assoc, List.cons_append]

theorem perform_remove_log (world : World σ Moment) (id : CombinatorId)
    (tick : UInt64) :
    (world.perform (.remove id tick)).log = world.log := by
  simp only [perform]
  rcases world.engine.remove id tick world.host with
    ⟨cause | report, engine, host⟩
  · rfl
  · show world.log ++ Moment.told world.engine world.host (.remove id tick) =
      world.log
    rw [Moment.told_remove, List.append_nil]

/-! ### Rounds -/

/-- An engine over a watched host, and a world that differs from them in nothing
but what is told of passes. -/
structure Alike (engine : Engine) (watched : Watched σ)
    (world : World σ Moment) : Prop where
  engine : engine = world.engine
  host : watched.host = world.host
  questions : watched.story.filter Moment.asks = world.log.filter Moment.asks

variable {engine : Engine} {watched : Watched σ} {world : World σ Moment}

/-- A pass inside a round is no different from one that is asked for. -/
theorem Alike.turn (alike : Alike engine watched world)
    {combinator : Combinator}
    (held : world.engine.combinator? combinator.id = some combinator)
    (tick : UInt64) :
    let passed := engine.passOf combinator tick watched
    let turned := world.turn tick combinator.id
    Alike passed.2.1 passed.2.2 turned ∧
      turned.log.filterMap Moment.report? =
        world.log.filterMap Moment.report? ++ [passed.1] := by
  intro passed turned
  simp only [passed, turned, Engine.passOf, Combinator.pass_watched,
    turn_told tick held, alike.engine, alike.host]
  refine ⟨⟨rfl, rfl, ?_⟩, ?_⟩
  · simp [List.filter_append, alike.questions, Moment.asks]
  · simp only [Combinator.question]
    cases combinator.wired <;> simp [List.filterMap_cons, Moment.report?]

theorem Alike.turns {combinators : List Combinator}
    (alike : Alike engine watched world)
    (held : ∀ combinator ∈ combinators,
      world.engine.combinator? combinator.id = some combinator)
    (distinct : combinators.Pairwise fun a b => a.id ≠ b.id) (tick : UInt64) :
    let round := engine.evaluateEach tick combinators watched
    let turned := world.turns tick (combinators.map Combinator.id)
    Alike round.2.1 round.2.2 turned ∧
      turned.log.filterMap Moment.report? =
        world.log.filterMap Moment.report? ++ round.1 := by
  induction combinators generalizing engine watched world with
  | nil => exact ⟨alike, (List.append_nil _).symm⟩
  | cons combinator rest induction =>
      obtain ⟨apart, restDistinct⟩ := List.pairwise_cons.mp distinct
      obtain ⟨first, others⟩ := List.forall_mem_cons.mp held
      obtain ⟨after, report⟩ := alike.turn first tick
      have restHeld : ∀ other ∈ rest,
          (world.turn tick combinator.id).engine.combinator? other.id =
            some other := by
        intro other member
        rw [turn_of_held tick first]
        show (world.engine.putCombinator _).combinator? other.id = some other
        rw [Engine.combinator?_putCombinator, Combinator.pass_id,
          if_neg (apart other member), others other member]
      obtain ⟨last, reports⟩ := induction after restHeld restDistinct
      refine ⟨last, reports.trans ?_⟩
      rw [report, List.append_assoc]
      rfl

/-- What every combinator remembers is what was told. -/
def Follows (world : World σ Moment) : Prop := world.engine.Follows world.log

theorem Follows.turn (follows : world.Follows) (tick : UInt64)
    (id : CombinatorId) :
    (world.turn tick id).Follows := by
  cases held : world.engine.combinator? id with
  | none =>
      rw [turn_of_none tick held]
      exact follows
  | some combinator =>
      rw [turn_told tick held, ← Engine.combinator?_id held]
      have knows :=
        (follows id combinator held).pass tick world.engine.ledger world.host
      obtain ⟨own, named, _⟩ :=
        combinator.pass_remembers tick world.engine.ledger world.host
      dsimp only at knows
      unfold Follows
      dsimp only
      rw [List.append_assoc] at knows ⊢
      refine Engine.Follows.put follows ?_ knows
      intro moment member
      rw [named]
      rcases List.mem_append.mp member with began | ended
      · rcases List.mem_cons.mp began with rfl | question
        · rfl
        · rw [Combinator.mem_question question]
          rfl
      · rw [List.mem_singleton.mp ended]
        exact congrArg some own

theorem Follows.turns (follows : world.Follows) (tick : UInt64)
    (ids : List CombinatorId) :
    (world.turns tick ids).Follows :=
  turns_induction World.Follows follows
    (fun _ id between => between.turn tick id) ids

/-- A combinator that comes in with rules remembers nothing but that they were
set. -/
theorem Follows.add (follows : world.Follows) (id : CombinatorId)
    (configs : List RuleConfig) :
    (world.perform (.add id configs)).Follows := by
  rcases world.engine.add_cases id configs with ⟨cause, refused⟩ |
    ⟨added, ids, done, facts⟩
  · simp only [perform, refused, toldOf]
    exact follows
  · simp only [perform, done, toldOf, Chronicle.told, Moment.told]
    obtain ⟨_, rfl, wired, reconciled, changed, _⟩ := facts
    refine Engine.Follows.put follows (by simp [Moment.about?]) ?_
    -- Its rules are set after it came in.
    have bare : Combinator.Follows { added with rulesChanged := false }
        (world.log ++ [.registered added.id]) :=
      Combinator.Follows.registered world.log wired reconciled rfl
    rw [List.append_cons]
    exact bare.ruled rfl rfl rfl changed

theorem Follows.perform (follows : world.Follows)
    (operation : Operation (σ → σ)) :
    (world.perform operation).Follows := by
  cases operation with
  | add id configs => exact follows.add id configs
  | addRestored id snapshots =>
      rcases world.engine.addRestored_cases id snapshots with
        ⟨cause, refused⟩ | ⟨_, done, _⟩
      · simp only [World.perform, refused, toldOf]
        exact follows
      · simp only [World.perform, done, toldOf, Chronicle.told, Moment.told]
        rw [Engine.addRestored_ok done]
        refine Engine.Follows.put follows (by simp [Moment.about?]; rfl) ?_
        exact .registered world.log rfl rfl rfl
  | setRules id configs =>
      rcases world.engine.setRules_cases id configs with
        ⟨cause, refused⟩ | ⟨old, after, ids, done, held, facts⟩
      · simp only [World.perform, refused, toldOf]
        exact follows
      · simp only [World.perform, done, toldOf, Chronicle.told, Moment.told]
        obtain ⟨rfl, wired, reconciled, changed, _⟩ := facts
        refine Engine.Follows.put follows (by simp [Moment.about?]) ?_
        exact (follows after.id old held).ruled
          (Engine.combinator?_id held).symm wired
          reconciled changed
  | noteWiringChange id =>
      rcases world.engine.noteWiringChange_cases id with ⟨cause, refused⟩ |
        ⟨noted, held, done⟩
      · simp only [World.perform, refused, toldOf]
        exact follows
      · simp only [World.perform, done, toldOf, Chronicle.told, Moment.told]
        obtain rfl := Engine.combinator?_id held
        refine Engine.Follows.put follows
          (by simp [Moment.about?, Combinator.forgetWiring]) ?_
        exact (follows noted.id noted held).forgetWiring
          (by simp [Moment.invalidates]) rfl rfl
  | noteDestroyed target =>
      intro id combinator held
      have mapped :
          (world.engine.combinators.find? id).map Combinator.forgetWiring =
            some combinator := by
        rw [← Ascending.find?_mapKeeping world.engine.combinators
          Combinator.forgetWiring
          fun _ => rfl]
        exact held
      obtain ⟨old, found, rfl⟩ := Option.map_eq_some_iff.mp mapped
      exact (follows id old found).forgetWiring rfl rfl rfl
  | restoreLedger entries =>
      show Engine.Follows _ (world.log ++ [])
      rw [List.append_nil]
      exact follows
  | evaluate id tick => exact follows.turn tick id
  | evaluateAll tick =>
      rw [perform_evaluateAll]
      exact follows.turns tick world.engine.combinatorIds
  | remove id tick =>
      intro other combinator held
      rw [perform_remove_log]
      exact follows other combinator (Engine.held_remove held).2
  | change change =>
      show Engine.Follows _ (world.log ++ [])
      rw [List.append_nil]
      exact follows

/-- The host is asked for a wiring where it is needed. -/
def AsksOrderly (world : World σ Moment) : Prop := Story.Orderly world.log

namespace AsksOrderly

theorem turn (orderly : world.AsksOrderly) (follows : world.Follows)
    (tick : UInt64) (id : CombinatorId) : (world.turn tick id).AsksOrderly := by
  cases held : world.engine.combinator? id with
  | none =>
      rw [turn_of_none tick held]
      exact orderly
  | some combinator =>
      obtain rfl := Engine.combinator?_id held
      obtain ⟨own, _⟩ :=
        combinator.pass_remembers tick world.engine.ledger world.host
      rw [turn_told tick held]
      unfold AsksOrderly
      dsimp only [Combinator.question]
      cases known : combinator.wired with
      | some targets =>
          rw [List.append_assoc]
          exact Story.Orderly.append orderly (by simp [Moment.asks])
      | none =>
          have unknown :=
            (follows combinator.id combinator held).wired.symm.trans known
          exact Story.Orderly.pass orderly unknown own

theorem turns (orderly : world.AsksOrderly) (follows : world.Follows)
    (tick : UInt64) (ids : List CombinatorId) :
    (world.turns tick ids).AsksOrderly := by
  have both :=
    turns_induction (fun after => after.Follows ∧ after.AsksOrderly)
      ⟨follows, orderly⟩
      (fun _ id ⟨knows, asks⟩ => ⟨knows.turn tick id, asks.turn knows tick id⟩)
      ids
  exact both.2

/-- What is told of other operations than passes is no question. -/
theorem toldOf {α : Type} (orderly : world.AsksOrderly)
    {operation : Operation (σ → σ)}
    (calm : ∀ moment ∈ Moment.told world.engine world.host operation,
      moment.asks = false)
    (answer : Except EngineError α) :
    Story.Orderly (world.toldOf operation answer) := by
  cases answer with
  | error cause => exact orderly
  | ok value => exact Story.Orderly.append orderly calm

theorem perform (orderly : world.AsksOrderly) (follows : world.Follows)
    (operation : Operation (σ → σ)) :
    (world.perform operation).AsksOrderly := by
  cases operation with
  | add | addRestored | setRules | noteWiringChange =>
      exact orderly.toldOf (by simp [Moment.told, Moment.asks]) _
  | noteDestroyed | restoreLedger | change =>
      exact Story.Orderly.append orderly
        (by simp [Chronicle.told, Moment.told, Moment.asks])
  | evaluate id tick => exact orderly.turn follows tick id
  | evaluateAll tick =>
      rw [perform_evaluateAll]
      exact orderly.turns follows tick world.engine.combinatorIds
  | remove id tick =>
      rw [AsksOrderly, perform_remove_log]
      exact orderly

end AsksOrderly

end World

end CircuitSections
