import CircuitSections.Host.Recorded
import CircuitSections.Proofs.Run.Memory
import Mathlib.Control.Monad.Basic

/-!
# Requests that are refused

A request is refused because it names the wrong combinator, or because the
limits do not take the rules that it brings.  Nothing else can go wrong: rules
are validated before the old ones are taken out, and building the new list
validates them again, which then cannot fail (`Combinator.renew_of_accepted`).
So a refused request leaves no trace, although rules are replaced in place
(`refusals_leave_no_trace`).
-/

namespace CircuitSections

/-- The limits take configurations that are not too many and each of them
valid. -/
def Limits.Accept (limits : Limits) (configs : List RuleConfig) : Prop :=
  configs.length ≤ limits.rulesPerCombinator.toNat ∧
    ∀ config ∈ configs, config.validate limits = .ok ()

/-! ### When rules are accepted -/

theorem Limits.checkRuleCount_eq_ok_iff {limits : Limits} {count : Nat} :
    limits.checkRuleCount count = .ok () ↔
      count ≤ limits.rulesPerCombinator.toNat := by
  constructor
  · exact Combinator.checkRuleCount_ok
  · intro few
    rw [checkRuleCount, if_neg (by omega)]

namespace Combinator

variable {limits : Limits}

theorem validateConfigs_eq_ok_iff {configs : List RuleConfig} :
    validateConfigs limits configs = .ok () ↔
      ∀ config ∈ configs, config.validate limits = .ok () := by
  induction configs with
  | nil => simp [validateConfigs]
  | cons config rest ih =>
      rw [List.forall_mem_cons, ← ih]
      constructor
      · intro checked
        obtain ⟨_, first, later⟩ := bind_ok checked
        exact ⟨first, later⟩
      · intro checked
        obtain ⟨first, later⟩ := checked
        rw [validateConfigs, first]
        exact later

/-- Where all configurations are valid, the list of rules is built to its
end. -/
theorem renew_of_accepted {configs : List RuleConfig}
    (valid : ∀ config ∈ configs, config.validate limits = .ok ())
    (old : List Rule) (ids : RuleIdSupply) :
    ∃ rules remaining, renew limits old configs ids =
      .ok (rules, remaining) := by
  induction configs generalizing old ids with
  | nil => exact ⟨[], ids, rfl⟩
  | cons config rest ih =>
      obtain ⟨first, later⟩ := List.forall_mem_cons.mp valid
      simp only [renew]
      split
      next kept others taken =>
        obtain ⟨rules, remaining, renewed⟩ := ih later others ids
        exact ⟨kept :: rules, remaining, by rw [renewed]; rfl⟩
      next missing =>
        -- A rule without an old one to keep is validated for the second time.
        have created : Rule.create config limits ids =
            .ok (.fresh ids.draw.1 config, ids.draw.2) := by
          rw [Rule.create, first]
          rfl
        obtain ⟨rules, remaining, renewed⟩ := ih later old ids.draw.2
        refine ⟨.fresh ids.draw.1 config :: rules, remaining, ?_⟩
        rw [created]
        show (renew limits old rest ids.draw.2 >>= _) = _
        rw [renewed]
        rfl

theorem setRules_succeeds_iff (limits : Limits) (combinator : Combinator)
    (configs : List RuleConfig) (ids : RuleIdSupply) :
    (∃ result, combinator.setRules configs limits ids = .ok result) ↔
      limits.Accept configs := by
  constructor
  · intro succeeds
    obtain ⟨result, done⟩ := succeeds
    obtain ⟨_, counted, afterCount⟩ := bind_ok done
    obtain ⟨_, checked, _⟩ := bind_ok afterCount
    exact ⟨checkRuleCount_ok counted, validateConfigs_eq_ok_iff.mp checked⟩
  · intro accepted
    obtain ⟨few, valid⟩ := accepted
    obtain ⟨rules, remaining, renewed⟩ :=
      renew_of_accepted valid combinator.rules ids
    refine ⟨({ combinator with rules, rulesChanged := true }, remaining), ?_⟩
    rw [setRules, Limits.checkRuleCount_eq_ok_iff.mpr few]
    show (validateConfigs limits configs >>= _) = _
    rw [validateConfigs_eq_ok_iff.mpr valid]
    show (renew limits combinator.rules configs ids >>= _) = _
    rw [renewed]
    rfl

/-! ### Rules in place -/

/-- The rules are replaced where they stand: the old ones are taken out before
the list of new ones is built, and a failure in the middle would leave none. -/
def replaceRules (combinator : Combinator) (configs : List RuleConfig)
    (limits : Limits) (ids : RuleIdSupply) :
    Except ValidationError Unit × Combinator × RuleIdSupply :=
  match limits.checkRuleCount configs.length >>= fun _ =>
    validateConfigs limits configs with
  | .error cause => (.error cause, combinator, ids)
  | .ok _ =>
    let drained := { combinator with rules := [] }
    match renew limits combinator.rules configs ids with
    | .error cause => (.error cause, drained, ids)
    | .ok (rules, ids) =>
      (.ok (), { drained with rules, rulesChanged := true }, ids)

/-- No failure comes in the middle: the rules in place are those that a
combinator with the new rules would have, or else the old ones. -/
theorem replaceRules_eq (combinator : Combinator) (configs : List RuleConfig)
    (limits : Limits) (ids : RuleIdSupply) :
    (∀ cause, combinator.setRules configs limits ids = .error cause →
      combinator.replaceRules configs limits ids =
        (.error cause, combinator, ids)) ∧
    (∀ after remaining, combinator.setRules configs limits ids =
      .ok (after, remaining) →
      combinator.replaceRules configs limits ids =
        (.ok (), after, remaining)) := by
  -- The two checks make one, as they do where rules are replaced in place.
  have same : combinator.setRules configs limits ids =
      ((limits.checkRuleCount configs.length >>= fun _ =>
        validateConfigs limits configs) >>=
        fun _ => renew limits combinator.rules configs ids >>= fun renewed =>
          .ok ({ combinator with rules := renewed.1, rulesChanged := true },
            renewed.2)) := by
    rw [bind_assoc]
    rfl
  rw [replaceRules, same]
  cases checked : limits.checkRuleCount configs.length >>= fun _ =>
      validateConfigs limits configs with
  | error cause =>
      constructor
      · intro other refused
        cases refused
        rfl
      · intro after remaining accepted
        cases accepted
  | ok _ =>
      obtain ⟨_, _, valid⟩ := bind_ok checked
      obtain ⟨rules, remaining, renewed⟩ :=
        renew_of_accepted (validateConfigs_eq_ok_iff.mp valid)
          combinator.rules ids
      simp only [renewed]
      constructor
      · intro cause refused
        cases refused
      · intro after left accepted
        cases accepted
        rfl

end Combinator

namespace Engine

theorem withRestoredRules_eq_ok_iff {limits : Limits} {id : CombinatorId}
    {snapshots : List RuleSnapshot} {combinator : Combinator} :
    (restoreRules limits snapshots >>= fun rules =>
      Combinator.withRules id rules limits) = .ok combinator ↔
        limits.Accept (snapshots.map RuleSnapshot.config) ∧
        combinator = { Combinator.empty id with
          rules := snapshots.map RuleSnapshot.rule } := by
  rw [Limits.Accept, List.length_map, List.forall_mem_map]
  constructor
  · intro made
    obtain ⟨rules, restored, counted⟩ := Combinator.bind_ok made
    obtain ⟨valid, rfl⟩ := restoreRules_eq_ok_iff.mp restored
    obtain ⟨_, few, same⟩ := Combinator.bind_ok counted
    rw [List.length_map, Limits.checkRuleCount_eq_ok_iff] at few
    cases same
    exact ⟨⟨few, valid⟩, rfl⟩
  · rintro ⟨⟨few, valid⟩, rfl⟩
    rw [restoreRules_eq_ok_iff.mpr ⟨valid, rfl⟩]
    show (limits.checkRuleCount (snapshots.map RuleSnapshot.rule).length >>=
      _) = _
    rw [List.length_map, Limits.checkRuleCount_eq_ok_iff.mpr few]
    rfl

def replaceRules (engine : Engine) (id : CombinatorId)
    (configs : List RuleConfig) :
    Except EngineError Unit × Engine :=
  match engine.combinator? id with
  | none => (.error (.combinatorNotFound id), engine)
  | some combinator =>
    let (answer, after, ids) :=
      combinator.replaceRules configs engine.limits engine.ids
    (accept answer, { engine.putCombinator after with ids })

/-- To replace rules in place is no different from putting in a combinator with
new ones. -/
theorem replaceRules_eq (engine : Engine) (id : CombinatorId)
    (configs : List RuleConfig) :
    engine.replaceRules id configs = engine.setRules id configs := by
  unfold replaceRules setRules
  cases held : engine.combinator? id with
  | none => rfl
  | some combinator =>
      obtain ⟨kept, renewed⟩ :=
        combinator.replaceRules_eq configs engine.limits engine.ids
      cases done : combinator.setRules configs engine.limits engine.ids with
      | error cause =>
          simp only [kept cause done, done, putCombinator_of_held held]
          rfl
      | ok result =>
          simp only [renewed result.1 result.2 done, done]
          rfl

end Engine

/-! ### Requests -/

/-- The operations of an engine that can be refused. -/
inductive Request
  | add (id : CombinatorId) (configs : List RuleConfig)
  | addRestored (id : CombinatorId) (snapshots : List RuleSnapshot)
  | setRules (id : CombinatorId) (configs : List RuleConfig)
  | save (id : CombinatorId)
  | noteWiringChange (id : CombinatorId)
  | remove (id : CombinatorId) (tick : UInt64)
  | evaluate (id : CombinatorId) (tick : UInt64)

namespace Request

def id : Request → CombinatorId
  | .add id _ | .addRestored id _ | .setRules id _ | .save id |
      .noteWiringChange id
  | .remove id _ | .evaluate id _ => id

/-- Whether the request brings a combinator in. -/
def adds : Request → Bool
  | .add _ _ | .addRestored _ _ => true
  | _ => false

/-- The configurations of the rules that the request brings. -/
def configs : Request → List RuleConfig
  | .add _ configs | .setRules _ configs => configs
  | .addRestored _ snapshots => snapshots.map RuleSnapshot.config
  | _ => []

/-- The error of a request that names a combinator which is there already, or
one which is not there, where it must not. -/
def misnamed? (engine : Engine) (request : Request) : Option EngineError :=
  match engine.combinator? request.id with
  | some _ =>
    if request.adds then some (.duplicateCombinator request.id) else none
  | none => if request.adds then none else some (.combinatorNotFound request.id)

/-- Whether the request is answered, and the engine and the host after it. -/
def perform {σ : Type} [ChannelReader σ] [WiringReader σ] [SectionEditor σ]
    (engine : Engine) (host : σ) : Request →
      Except EngineError Unit × Engine × σ
  | .add id configs =>
    let (answer, engine) := engine.add id configs
    (answer, engine, host)
  | .addRestored id snapshots =>
    let (answer, engine) := engine.addRestored id snapshots
    (answer, engine, host)
  | .setRules id configs =>
    let (answer, engine) := engine.setRules id configs
    (answer, engine, host)
  | .save id => ((engine.snapshots id).map fun _ => (), engine, host)
  | .noteWiringChange id =>
    let (answer, engine) := engine.noteWiringChange id
    (answer, engine, host)
  | .remove id tick =>
    let (answer, engine, host) := engine.remove id tick host
    (answer.map fun _ => (), engine, host)
  | .evaluate id tick =>
    let (answer, engine, host) := engine.evaluate id tick host
    (answer.map fun _ => (), engine, host)

end Request

/-- What may come of a request: it is answered, it is refused for the combinator
that it names, or it is refused for its rules. -/
inductive Request.Outcome {σ : Type} (engine : Engine) (host : σ)
    (request : Request) :
    Except EngineError Unit × Engine × σ → Prop
  | answered {after : Engine} {asked : σ} :
      request.misnamed? engine = none → engine.limits.Accept request.configs →
      Outcome engine host request (.ok (), after, asked)
  | misnamed {cause : EngineError} :
      request.misnamed? engine = some cause →
      Outcome engine host request (.error cause, engine, host)
  | invalid {cause : ValidationError} :
      request.misnamed? engine = none → ¬ engine.limits.Accept request.configs →
      Outcome engine host request (.error (.validation cause), engine, host)

namespace Request

section Naming

variable {engine : Engine} {request : Request}

theorem misnamed?_of_held {combinator : Combinator}
    (held : engine.combinator? request.id = some combinator) :
    request.misnamed? engine =
      if request.adds then some (.duplicateCombinator request.id)
        else none := by
  rw [misnamed?, held]

theorem misnamed?_of_absent (absent : engine.combinator? request.id = none) :
    request.misnamed? engine =
      if request.adds then none else some (.combinatorNotFound request.id) := by
  rw [misnamed?, absent]

theorem Outcome.of_named {σ : Type} {host : σ}
    (named : request.misnamed? engine = none) (bare : request.configs = [])
    (after : Engine) (asked : σ) :
    request.Outcome engine host (.ok (), after, asked) := by
  refine .answered named ?_
  rw [bare]
  exact ⟨Nat.zero_le _, fun _ member => absurd member List.not_mem_nil⟩

end Naming

theorem not_of_error {α : Type} {answer : Except ValidationError α}
    {cause : ValidationError} {accepted : Prop}
    (succeeds : (∃ result, answer = .ok result) ↔ accepted)
    (failed : answer = .error cause) : ¬ accepted := by
  intro taken
  obtain ⟨result, done⟩ := succeeds.mpr taken
  rw [failed] at done
  cases done

variable {σ : Type} [ChannelReader σ] [WiringReader σ] [SectionEditor σ]

theorem perform_outcome (engine : Engine) (host : σ) (request : Request) :
    request.Outcome engine host (request.perform engine host) := by
  cases held : engine.combinator? request.id with
  | none =>
      have misnamed := misnamed?_of_absent held
      cases request with
      | add id configs =>
          have absent : engine.combinators.contains id = false :=
            congrArg Option.isSome held
          have succeeds :=
            Combinator.setRules_succeeds_iff engine.limits (.empty id) configs
              engine.ids
          simp only [perform, Engine.add, absent]
          cases accepted :
            (Combinator.empty id).setRules configs engine.limits engine.ids with
          | error cause =>
              exact .invalid misnamed (not_of_error succeeds accepted)
          | ok result =>
              exact .answered misnamed (succeeds.mp ⟨result, accepted⟩)
      | addRestored id snapshots =>
          have absent : engine.combinators.contains id = false :=
            congrArg Option.isSome held
          have succeeds :
              (∃ combinator, (Engine.restoreRules engine.limits snapshots >>=
              fun rules => Combinator.withRules id rules engine.limits) =
                .ok combinator) ↔
                  engine.limits.Accept (snapshots.map RuleSnapshot.config) := by
            simp only [Engine.withRestoredRules_eq_ok_iff, exists_and_left,
              exists_eq, and_true]
          simp only [perform, Engine.addRestored, absent]
          cases accepted : Engine.restoreRules engine.limits snapshots >>=
            fun rules =>
              Combinator.withRules id rules engine.limits with
          | error cause =>
              exact .invalid misnamed (not_of_error succeeds accepted)
          | ok combinator =>
              exact .answered misnamed (succeeds.mp ⟨combinator, accepted⟩)
      | setRules id configs =>
          change engine.combinator? id = none at held
          simp only [perform, Engine.setRules, held]
          exact .misnamed misnamed
      | save id =>
          change engine.combinator? id = none at held
          simp only [perform, Engine.snapshots, held]
          exact .misnamed misnamed
      | noteWiringChange id =>
          change engine.combinator? id = none at held
          simp only [perform, Engine.noteWiringChange, held]
          exact .misnamed misnamed
      | remove id tick =>
          change engine.combinator? id = none at held
          simp only [perform, Engine.remove, held]
          exact .misnamed misnamed
      | evaluate id tick =>
          change engine.combinator? id = none at held
          simp only [perform, Engine.evaluate, held]
          exact .misnamed misnamed
  | some combinator =>
      have named := misnamed?_of_held held
      cases request with
      | add id configs =>
          have present : engine.combinators.contains id = true :=
            congrArg Option.isSome held
          simp only [perform, Engine.add, present]
          exact .misnamed named
      | addRestored id snapshots =>
          have present : engine.combinators.contains id = true :=
            congrArg Option.isSome held
          simp only [perform, Engine.addRestored, present]
          exact .misnamed named
      | setRules id configs =>
          change engine.combinator? id = some combinator at held
          have succeeds :=
            Combinator.setRules_succeeds_iff engine.limits combinator configs
              engine.ids
          simp only [perform, Engine.setRules, held]
          cases accepted :
            combinator.setRules configs engine.limits engine.ids with
          | error cause => exact .invalid named (not_of_error succeeds accepted)
          | ok result => exact .answered named (succeeds.mp ⟨result, accepted⟩)
      | save id =>
          change engine.combinator? id = some combinator at held
          simp only [perform, Engine.snapshots, held]
          exact .of_named named rfl _ _
      | noteWiringChange id =>
          change engine.combinator? id = some combinator at held
          simp only [perform, Engine.noteWiringChange, held]
          exact .of_named named rfl _ _
      | remove id tick =>
          change engine.combinator? id = some combinator at held
          simp only [perform, Engine.remove, held]
          exact .of_named named rfl _ _
      | evaluate id tick =>
          change engine.combinator? id = some combinator at held
          simp only [perform, Engine.evaluate, held]
          exact .of_named named rfl _ _

/-- A request is refused just if it names the wrong combinator, which is found
out first, or brings rules that the limits do not take.  Then the engine is what
it was, and the host was not asked anything.  Rules that are validated when a
list is set never fail while the list is built, so this is true although rules
are replaced in place. -/
theorem refusals_leave_no_trace (engine : Engine) (host : Recorded σ)
    (request : Request) :
    let (answer, after, asked) := request.perform engine host
    ((∃ cause, answer = .error cause) ↔
      request.misnamed? engine ≠ none ∨
        ¬ engine.limits.Accept request.configs) ∧
    (∀ cause, answer = .error cause →
      (request.misnamed? engine = some cause ∨
        request.misnamed? engine = none ∧ cause.isValidation = true) ∧
      after = engine ∧ asked = host) ∧
    (∀ old configs ids, engine.limits.Accept configs →
      ∃ rules remaining, Combinator.renew engine.limits old configs ids =
        .ok (rules, remaining)) ∧
    ∀ id configs, engine.replaceRules id configs =
      engine.setRules id configs := by
  have renewal (old : List Rule) (configs : List RuleConfig)
      (ids : RuleIdSupply)
      (accepted : engine.limits.Accept configs) :=
        Combinator.renew_of_accepted accepted.2 old ids
  have outcome := perform_outcome engine host request
  rcases performed : request.perform engine host with ⟨answer, after, asked⟩
  rw [performed] at outcome
  cases outcome with
  | answered named accepted =>
      refine ⟨?_, ?_, renewal, engine.replaceRules_eq⟩
      · simp [named, accepted]
      · intro cause refused
        cases refused
  | @misnamed cause wrong =>
      refine ⟨?_, ?_, renewal, engine.replaceRules_eq⟩
      · simp [wrong]
      · intro other refused
        cases refused
        exact ⟨.inl wrong, rfl, rfl⟩
  | @invalid cause named unacceptable =>
      refine ⟨?_, ?_, renewal, engine.replaceRules_eq⟩
      · simp [unacceptable]
      · intro other refused
        cases refused
        exact ⟨.inr ⟨named, rfl⟩, rfl, rfl⟩

/-- A list of rules of which the last one has no name for its section is
refused, and the combinator keeps the rule that it has. -/
theorem refusals_leave_no_trace_nameless :
    let world := (World.start .default ⟨0⟩).run World.ironRun
    let nameless : RuleConfig :=
      { World.ironRule with spec := { World.iron with name := " " } }
    let (answer, after, asked) :=
      (Request.setRules ⟨7⟩ [World.ironRule, nameless]).perform
        world.engine (Recorded.mk world.host [])
    answer = .error (.validation .blankGroupName) ∧ after = world.engine ∧
      asked.calls = [] := by
  intro world nameless
  have refusal :=
    refusals_leave_no_trace world.engine (Recorded.mk world.host [])
      (.setRules ⟨7⟩ [World.ironRule, nameless])
  have answer :
      ((Request.setRules ⟨7⟩ [World.ironRule, nameless]).perform world.engine
        (Recorded.mk world.host [])).1 =
          .error (.validation .blankGroupName) := by
    decide +kernel
  rcases ran :
    (Request.setRules ⟨7⟩ [World.ironRule, nameless]).perform world.engine
    (Recorded.mk world.host []) with ⟨given, after, asked⟩
  rw [ran] at refusal answer
  obtain ⟨_, untouched, _⟩ := refusal
  obtain ⟨_, same, unasked⟩ := untouched _ answer
  exact ⟨answer, same, congrArg Recorded.calls unasked⟩

end Request

end CircuitSections
