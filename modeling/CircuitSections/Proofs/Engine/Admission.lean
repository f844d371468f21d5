import CircuitSections.Proofs.Combinator.Policy
import CircuitSections.Proofs.Condition.RightSides
import CircuitSections.Proofs.Engine.Refusals

/-!
# Only valid rules are evaluated

Whatever is asked of an engine, on whatever hosts, its combinators hold rules
that its limits accept.  So no pass evaluates a condition that could not be set
up, and the values that stand in for a missing right side are never used.
-/

namespace CircuitSections

namespace Combinator

variable {σ : Type}

variable [ChannelReader σ] [WiringReader σ] [SectionEditor σ]

theorem pass_steps (combinator : Combinator) (tick : UInt64)
    (ledger : Ledger) (host : σ) :
    let steps := (combinator.readChannels host).1.stepRules tick
    (combinator.pass tick ledger host).1.edges = steps.1 ∧
      (combinator.pass tick ledger host).2.1.rules = steps.2.rules := by
  obtain ⟨targets, left⟩ := combinator.pass_leaves tick ledger host
  refine ⟨?_, by rw [left]⟩
  unfold pass
  dsimp only
  split <;> rfl

theorem Valid.pass {limits : Limits} {combinator : Combinator}
    (valid : combinator.Valid limits) (tick : UInt64)
    (ledger : Ledger) (host : σ) :
    (combinator.pass tick ledger host).2.1.Valid limits := by
  obtain ⟨few, accepted⟩ := valid
  obtain ⟨_, stepped⟩ := combinator.pass_steps tick ledger host
  have rules : (combinator.pass tick ledger host).2.1.rules =
      combinator.rules.map fun rule =>
        (rule.step (combinator.readChannels host).1.channels tick).2 := by
    rw [stepped]
    exact List.map_map
  constructor
  · rw [rules, List.length_map]
    exact few
  · intro rule member
    rw [rules] at member
    obtain ⟨old, listed, rfl⟩ := List.mem_map.mp member
    rw [Rule.step_config]
    exact accepted old listed

end Combinator

namespace Engine

/-- What one operation makes of an engine, whether it is answered or refused, on
a host of any kind and in any state. -/
inductive Step (engine : Engine) : Engine → Prop
  | requested {σ : Type} [ChannelReader σ] [WiringReader σ] [SectionEditor σ]
      (request : Request)
      (host : σ) : Step engine (request.perform engine host).2.1
  | ranRound {σ : Type} [ChannelReader σ] [WiringReader σ] [SectionEditor σ]
      (tick : UInt64)
      (host : σ) : Step engine (engine.evaluateAll tick host).2.1
  | targetDestroyed (target : TargetId) :
      Step engine (engine.noteDestroyed target).2
  | ledgerRestored (entries : List TrackedSection) :
      Step engine (engine.restoreLedger entries)

/-- The engines that come of new ones by any operations. -/
inductive Reachable : Engine → Prop
  | empty (ids : RuleIdSupply) : Reachable (Engine.empty ids)
  | limited {limits : Limits} {ids : RuleIdSupply} {engine : Engine}
      (made : Engine.withLimits limits ids = .ok engine) : Reachable engine
  | step {before after : Engine} (earlier : Reachable before)
      (step : Step before after) :
      Reachable after

/-- The limits accept the rules of every combinator. -/
def Admits (engine : Engine) : Prop :=
  ∀ id combinator, engine.combinator? id = some combinator →
    combinator.Valid engine.limits

namespace Admits

variable {engine : Engine} {combinator : Combinator} {σ : Type}

theorem put (admits : engine.Admits) (valid : combinator.Valid engine.limits) :
    (engine.putCombinator combinator).Admits := by
  intro id other held
  rcases held_putCombinator held with ⟨rfl, _⟩ | ⟨_, earlier⟩
  · exact valid
  · exact admits id other earlier

theorem noteDestroyed (admits : engine.Admits) (target : TargetId) :
    (engine.noteDestroyed target).2.Admits := by
  intro id combinator held
  have mapped : (engine.combinators.find? id).map Combinator.forgetWiring =
      some combinator := by
    rw [← Ascending.find?_mapKeeping engine.combinators
      Combinator.forgetWiring fun _ => rfl]
    exact held
  obtain ⟨old, found, rfl⟩ := Option.map_eq_some_iff.mp mapped
  exact admits id old found

section Passes

variable [ChannelReader σ] [WiringReader σ] [SectionEditor σ]

theorem passOf (admits : engine.Admits) (valid : combinator.Valid engine.limits)
    (tick : UInt64) (host : σ) :
    (engine.passOf combinator tick host).2.1.Admits :=
  admits.put (valid.pass tick engine.ledger host)

theorem evaluateEach (admits : engine.Admits) {combinators : List Combinator}
    (valid : ∀ combinator ∈ combinators, combinator.Valid engine.limits)
    (tick : UInt64) (host : σ) :
    (engine.evaluateEach tick combinators host).2.1.Admits := by
  induction combinators generalizing engine host with
  | nil => exact admits
  | cons first rest ih =>
      obtain ⟨firstValid, restValid⟩ := List.forall_mem_cons.mp valid
      -- A pass leaves the limits alone, so the later combinators are still
      -- valid.
      exact ih (admits.passOf firstValid tick host) restValid
        (engine.passOf first tick host).2.2

end Passes

theorem perform [ChannelReader σ] [WiringReader σ] [SectionEditor σ]
    (admits : engine.Admits) (request : Request) (host : σ) :
    (request.perform engine host).2.1.Admits := by
  cases request with
  | add id configs =>
      show (engine.add id configs).2.Admits
      rcases engine.add_cases id configs with ⟨cause, refused⟩ |
        ⟨added, ids, done, facts⟩
      · rw [refused]
        exact admits
      · rw [done]
        obtain ⟨_, _, _, _, _, valid⟩ := facts
        exact admits.put valid
  | addRestored id snapshots =>
      show (engine.addRestored id snapshots).2.Admits
      rcases engine.addRestored_cases id snapshots with ⟨cause, refused⟩ |
        ⟨added, done, facts⟩
      · rw [refused]
        exact admits
      · rw [done]
        obtain ⟨_, _, _, valid⟩ := facts
        exact admits.put valid
  | setRules id configs =>
      show (engine.setRules id configs).2.Admits
      rcases engine.setRules_cases id configs with
        ⟨cause, refused⟩ | ⟨old, changed, ids, done, found, facts⟩
      · rw [refused]
        exact admits
      · rw [done]
        obtain ⟨_, _, _, _, valid⟩ := facts
        exact admits.put (valid (admits id old found))
  | save id => exact admits
  | noteWiringChange id =>
      show (engine.noteWiringChange id).2.Admits
      rcases engine.noteWiringChange_cases id with ⟨cause, refused⟩ |
        ⟨noted, found, done⟩
      · rw [refused]
        exact admits
      · rw [done]
        exact admits.put (admits id noted found)
  | remove id tick =>
      show (engine.remove id tick host).2.1.Admits
      have limits : (engine.remove id tick host).2.1.limits =
          engine.limits := by
        unfold remove
        split <;> rfl
      intro other combinator held
      rw [limits]
      exact admits other combinator (held_remove held).2
  | evaluate id tick =>
      show (engine.evaluate id tick host).2.1.Admits
      unfold evaluate
      split
      · exact admits
      next combinator found =>
        exact admits.passOf (admits id combinator found) tick host

theorem step (admits : engine.Admits) {after : Engine}
    (step : Step engine after) :
    after.Admits := by
  cases step with
  | requested request host => exact admits.perform request host
  | targetDestroyed target => exact admits.noteDestroyed target
  | ledgerRestored entries => exact admits
  | ranRound tick host =>
      apply admits.evaluateEach
      intro combinator member
      exact admits combinator.id combinator (Ascending.find?_key member)

end Admits

theorem Reachable.admits {engine : Engine} (reachable : engine.Reachable) :
    engine.Admits := by
  induction reachable with
  | empty ids => exact nofun
  | limited made =>
      obtain ⟨_, _, same⟩ := Combinator.bind_ok made
      cases same
      exact nofun
  | step _ step earlier => exact earlier.step step

end Engine

/-- The edges and rules of a pass where stand-ins take the place of missing
right sides. -/
def StandIns.stepRules (standIns : StandIns) (combinator : Combinator)
    (tick : UInt64) :
    List RuleEdge × Combinator :=
  let steps := combinator.rules.map fun rule =>
    rule.observe (standIns.allHold rule.config.conditions combinator.channels)
      tick
  (steps.filterMap Prod.fst, { combinator with rules := steps.map Prod.snd })

theorem StandIns.stepRules_eq (standIns : StandIns) {combinator : Combinator}
    (sided : ∀ rule ∈ combinator.rules, ∀ condition ∈ rule.config.conditions,
      condition.HasRightSide) (tick : UInt64) :
    standIns.stepRules combinator tick = combinator.stepRules tick := by
  have steps : (combinator.rules.map fun rule =>
        rule.observe
          (standIns.allHold rule.config.conditions combinator.channels) tick) =
      combinator.rules.map fun rule => rule.step combinator.channels tick := by
    apply List.map_congr_left
    intro rule member
    rw [standIns.allHold_of_hasRightSide (sided rule member)]
    rfl
  rw [stepRules, Combinator.stepRules, steps]

theorem RuleConfig.hasRightSide_of_validate {config : RuleConfig}
    {limits : Limits} (valid : config.validate limits = .ok ()) :
    ∀ condition ∈ config.conditions, condition.HasRightSide := by
  unfold validate at valid
  dsimp only at valid
  split at valid
  · cases valid
  · obtain ⟨_, conditions, _⟩ := Combinator.bind_ok valid
    exact Condition.hasRightSide_of_validateFrom conditions

/-- Only valid rules are evaluated: in every engine that is reached a combinator
is found under its own number and has no more rules than the limits allow, each
of them valid.  So every right side in a pass can be read, and what stands in
for the others makes no difference.  The first of these the structure carries:
an engine keeps combinators by the numbers that they bear. -/
theorem Engine.only_valid_rules_evaluated {engine : Engine}
    (reachable : engine.Reachable) {id : CombinatorId} {combinator : Combinator}
    (held : engine.combinator? id = some combinator) :
    combinator.id = id ∧
      combinator.rules.length ≤ engine.limits.rulesPerCombinator.toNat ∧
      (∀ rule ∈ combinator.rules, rule.config.validate engine.limits = .ok () ∧
        ∀ condition ∈ rule.config.conditions, condition.HasRightSide) ∧
      ∀ (σ : Type) [ChannelReader σ] [WiringReader σ] [SectionEditor σ]
      (standIns : StandIns)
        (tick : UInt64) (ledger : Ledger) (host : σ),
        let steps := standIns.stepRules (combinator.readChannels host).1 tick
        (combinator.pass tick ledger host).1.edges = steps.1 ∧
          (combinator.pass tick ledger host).2.1.rules = steps.2.rules := by
  obtain ⟨few, accepted⟩ := reachable.admits id combinator held
  have sided : ∀ rule ∈ combinator.rules, ∀ condition ∈ rule.config.conditions,
      condition.HasRightSide := by
    intro rule member
    exact RuleConfig.hasRightSide_of_validate (accepted rule member)
  refine ⟨combinator?_id held, few, ?_, ?_⟩
  · intro rule member
    exact ⟨accepted rule member, sided rule member⟩
  · intro σ _ _ _ standIns tick ledger host
    have same : standIns.stepRules (combinator.readChannels host).1 tick =
        (combinator.readChannels host).1.stepRules tick := by
      apply standIns.stepRules_eq
      exact sided
    rw [same]
    exact combinator.pass_steps tick ledger host

/-- A rule that compares every signal of one channel with itself on the
other. -/
def eachRule : RuleConfig where
  conditions :=
    [⟨⟨.each, .red, false⟩, .greater, .signal ⟨.each, .green, false⟩, none⟩]
  action := .inject
  spec := World.iron

theorem Engine.only_valid_rules_evaluated_each :
    ∃ (engine : Engine) (combinator : Combinator), engine.Reachable ∧
      engine.combinator? ⟨7⟩ = some combinator ∧
      combinator.rules = [.fresh (.numbered 0) eachRule] ∧
        combinator.rules.length ≤ 1 ∧
      ∀ rule ∈ combinator.rules, ∀ condition ∈ rule.config.conditions,
        condition.HasRightSide := by
  let start : Engine := { Engine.empty ⟨0⟩ with limits := ⟨1, 1⟩ }
  have made : Engine.withLimits ⟨1, 1⟩ ⟨0⟩ = .ok start := rfl
  let engine :=
    ((Request.add ⟨7⟩ [eachRule]).perform start MemoryHost.empty).2.1
  have reachable : engine.Reachable := .step (.limited made) (.requested _ _)
  let combinator : Combinator :=
    { Combinator.empty ⟨7⟩ with
      rules := [.fresh (.numbered 0) eachRule], rulesChanged := true }
  have held : engine.combinator? ⟨7⟩ = some combinator := rfl
  obtain ⟨_, few, valid, _⟩ := only_valid_rules_evaluated reachable held
  refine ⟨engine, combinator, reachable, held, rfl, few, ?_⟩
  intro rule member
  exact (valid rule member).2

end CircuitSections
