import CircuitSections.Proofs.Combinator.Policy
import CircuitSections.Proofs.Run.Memory
import CircuitSections.Proofs.Save.Lossless

/-!
# The edges of a rule

A rule lives through steps and reloads.  A reload writes its saved form as a
text, reads that and restores a rule from it, under limits of its own.  Since
the saved form has all that a rule remembers, the edges do not show where the
reloads were: there is one for each step whose verdict is not the one before it,
and no other.
-/

namespace CircuitSections

theorem SectionSpec.isFinite_of_validate {spec : SectionSpec}
    (valid : spec.validate = .ok ()) :
    spec.multiplier.isFinite = true := by
  unfold validate at valid
  dsimp only at valid
  split at valid
  · cases valid
  split at valid
  · cases valid
  split at valid
  next inRange => exact inRange.1
  next => cases valid

theorem RuleConfig.isFinite_of_validate {config : RuleConfig} {limits : Limits}
    (valid : config.validate limits = .ok ()) :
    config.spec.multiplier.isFinite = true := by
  unfold validate at valid
  dsimp only at valid
  split at valid
  · cases valid
  cases conditions : Condition.validateAll config.conditions with
  | error cause =>
      rw [conditions] at valid
      cases valid
  | ok _ =>
      rw [conditions] at valid
      exact SectionSpec.isFinite_of_validate valid

/-- What a rule lives through. -/
inductive RuleEvent
  /-- It is evaluated on the channels at the tick. -/
  | step (channels : Channels) (tick : UInt64)
  /-- It is saved as a text, and a rule is restored from that under the
  limits. -/
  | reload (limits : Limits)

namespace Rule

/-- The rule that is restored from the text of the saved form; there is no
result if the text is not read. -/
def reload (rule : Rule) (limits : Limits) :
    Option (Except ValidationError Rule) :=
  (loadText? (saveText rule.snapshot)).map fun snapshot =>
    restore snapshot limits

/-- What comes of a run: the edges, in order, and the rule at the end.  There is
none if a text was not read, and an error if no rule was restored. -/
abbrev Outcome := Option (Except ValidationError (List RuleEdge × Rule))

/-- What comes of a run that begins with the edges. -/
def Outcome.behind (edges : List RuleEdge) (outcome : Outcome) : Outcome :=
  outcome.map fun ended => ended.map fun (later, last) => (edges ++ later, last)

/-- What comes of a run that goes on with the restored rule, if there is one. -/
def Outcome.resumed (restored : Option (Except ValidationError Rule))
    (run : Rule → Outcome) : Outcome :=
  match restored with
  | some (.ok rule) => run rule
  | some (.error cause) => some (.error cause)
  | none => none

/-- Lets the rule live through the events, up to a reload that restores no
rule. -/
def run (rule : Rule) : List RuleEvent → Outcome
  | [] => some (.ok ([], rule))
  | .step channels tick :: events =>
    let (edge, stepped) := rule.step channels tick
    (stepped.run events).behind edge.toList
  | .reload limits :: events =>
    .resumed (rule.reload limits) fun restored => restored.run events

/-- The verdicts on the steps among the events, with the ticks of the steps. -/
def verdicts (rule : Rule) (events : List RuleEvent) : List (Bool × UInt64) :=
  events.filterMap fun
    | .step channels tick => some (rule.holds channels, tick)
    | .reload _ => none

/-- One edge for each verdict that is not the one before it, where the
remembered result stands before the first. -/
def changes (rule : Rule) (verdicts : List (Bool × UInt64)) : List RuleEdge :=
  ((rule.previousResult :: verdicts.map Prod.fst).zip verdicts).filterMap
    fun (before, now, tick) =>
      if now = before then none
      else some ⟨rule.id, now, rule.config.action, rule.config.spec, tick⟩

/-- The rule that remembers the last of the verdicts and the tick of the last
change, and what it remembered already where there is none. -/
def after (rule : Rule) (verdicts : List (Bool × UInt64)) : Rule :=
  { rule with
    previousResult := (verdicts.getLast?.map Prod.fst).getD rule.previousResult
    lastFired := ((rule.changes verdicts).getLast?.map RuleEdge.tick).or
      rule.lastFired }

/-! ### Reloads -/

section Reloads

variable {rule : Rule} {limits : Limits}

theorem restore_snapshot (rule : Rule) (limits : Limits) :
    restore rule.snapshot limits = (rule.config.validate limits).map fun _ =>
      rule := by
  show (do rule.config.validate limits; return rule) = _
  cases rule.config.validate limits <;> rfl

theorem reload_eq (kept : rule.config.spec.multiplier.ReadsBack)
    (limits : Limits) :
    rule.reload limits =
      some ((rule.config.validate limits).map fun _ => rule) := by
  have multiplier : ∀ m ∈ multipliers rule.snapshot, m.ReadsBack := by
    intro m held
    cases List.mem_singleton.mp held
    exact kept
  obtain ⟨_, read, rfl, _⟩ :=
    (lossless_ruleSnapshot.restored rule.snapshot multiplier).returnsFromText
  rw [reload, read, Option.map_some, restore_snapshot]

theorem reload_accepted (valid : rule.config.validate limits = .ok ())
    (kept : rule.config.spec.multiplier.isFinite = true →
      rule.config.spec.multiplier.ReadsBack) :
    rule.reload limits = some (.ok rule) := by
  rw [reload_eq (kept (RuleConfig.isFinite_of_validate valid)), valid]
  rfl

end Reloads

/-! ### Results -/

theorem verdicts_of_config {rule other : Rule}
    (same : rule.config = other.config) (events : List RuleEvent) :
    rule.verdicts events = other.verdicts events := by
  refine List.filterMap_congr fun event _ => ?_
  cases event with
  | step channels tick =>
      exact congrArg (fun now => some (now, tick))
        (holds_of_config same channels)
  | reload limits => rfl

section Results

variable (rule : Rule) (now : Bool) (tick : UInt64)
  (later : List (Bool × UInt64))

theorem observe_id : (rule.observe now tick).2.id = rule.id := by
  unfold observe
  split <;> rfl

theorem observe_config : (rule.observe now tick).2.config = rule.config := by
  unfold observe
  split <;> rfl

theorem observe_previousResult :
    (rule.observe now tick).2.previousResult = now := by
  unfold observe
  split
  next same => exact same.symm
  next => rfl

theorem observe_lastFired : (rule.observe now tick).2.lastFired =
    ((rule.observe now tick).1.map RuleEdge.tick).or rule.lastFired := by
  unfold observe
  split <;> rfl

/-- The first change is the edge of the first result, and the others are those
of the rule that has taken it in. -/
theorem changes_cons : rule.changes ((now, tick) :: later) =
    (rule.observe now tick).1.toList ++ (rule.observe now tick).2.changes
      later := by
  by_cases same : now = rule.previousResult <;> simp [changes, observe, same]

/-- What is remembered in the end is what the rule that has taken in the first
result remembers after the others. -/
theorem after_cons : rule.after ((now, tick) :: later) =
    (rule.observe now tick).2.after later := by
  have result :
      (((now, tick) :: later).getLast?.map Prod.fst).getD rule.previousResult =
        (later.getLast?.map Prod.fst).getD
          (rule.observe now tick).2.previousResult := by
    rw [observe_previousResult, List.getLast?_cons]
    cases later.getLast? <;> rfl
  have fired :
      ((rule.changes ((now, tick) :: later)).getLast?.map RuleEdge.tick).or
        rule.lastFired =
      (((rule.observe now tick).2.changes later).getLast?.map RuleEdge.tick).or
        (rule.observe now tick).2.lastFired := by
    have edge : (rule.observe now tick).1.toList.getLast? =
        (rule.observe now tick).1 := by
      cases (rule.observe now tick).1 <;> rfl
    rw [changes_cons, List.getLast?_append, edge, Option.map_or,
      Option.or_assoc, observe_lastFired]
  unfold after
  rw [result, fired, observe_id, observe_config]

end Results

theorem isChain_changes (rule : Rule) (verdicts : List (Bool × UInt64)) :
    (rule.previousResult :: (rule.changes verdicts).map RuleEdge.rising).IsChain
      (· ≠ ·) := by
  induction verdicts generalizing rule with
  | nil => exact .singleton _
  | cons verdict verdicts ih =>
      obtain ⟨now, tick⟩ := verdict
      have rest := ih (rule.observe now tick).2
      rw [changes_cons]
      rw [observe_previousResult] at rest
      -- A result that is the same has no edge, and so the chain goes on from
      -- the one before it.
      by_cases same : now = rule.previousResult
      · simp only [observe, if_pos same] at rest ⊢
        rw [← same]
        exact rest
      · simp only [observe, if_neg same] at rest ⊢
        exact List.isChain_cons_cons.mpr ⟨Ne.symm same, rest⟩

/-! ### Runs -/

theorem Outcome.behind_nil (outcome : Outcome) :
    outcome.behind [] = outcome := by
  cases outcome with
  | none => rfl
  | some ended => cases ended <;> rfl

theorem Outcome.behind_append (first second : List RuleEdge)
    (outcome : Outcome) :
    outcome.behind (first ++ second) =
      (outcome.behind second).behind first := by
  cases outcome with
  | none => rfl
  | some ended =>
      cases ended with
      | error cause => rfl
      | ok ended =>
          show some (Except.ok (first ++ second ++ ended.1, ended.2)) = _
          rw [List.append_assoc]
          rfl

theorem run_step (rule : Rule) (channels : Channels) (tick : UInt64)
    (events : List RuleEvent) :
    rule.run (.step channels tick :: events) =
      ((rule.step channels tick).2.run events).behind
        (rule.step channels tick).1.toList := rfl

theorem run_reload (rule : Rule) (limits : Limits) (events : List RuleEvent) :
    rule.run (.reload limits :: events) =
      .resumed (rule.reload limits) fun restored => restored.run events := rfl

/-- Up to events that follow, a rule whose reloads are accepted has just the
edges of its changes, and remembers what they leave. -/
theorem run_append {rule : Rule} {events : List RuleEvent}
    (reloads : ∀ limits, .reload limits ∈ events →
      rule.config.validate limits = .ok () ∧
      (rule.config.spec.multiplier.isFinite = true →
        rule.config.spec.multiplier.ReadsBack))
    (more : List RuleEvent) :
    rule.run (events ++ more) =
      ((rule.after (rule.verdicts events)).run more).behind
        (rule.changes (rule.verdicts events)) := by
  induction events generalizing rule with
  | nil => exact (Outcome.behind_nil _).symm
  | cons event events ih =>
      have later : ∀ limits, .reload limits ∈ events →
          rule.config.validate limits = .ok () ∧
          (rule.config.spec.multiplier.isFinite = true →
            rule.config.spec.multiplier.ReadsBack) :=
        fun limits listed => reloads limits (List.mem_cons_of_mem _ listed)
      cases event with
      | step channels tick =>
          -- The stepped rule is another one, but reloads and verdicts only see
          -- its configuration.
          have config : (rule.step channels tick).2.config = rule.config :=
            rule.step_config _ _
          rw [← config] at later
          have verdicts : rule.verdicts (.step channels tick :: events) =
              (rule.holds channels, tick) ::
                (rule.step channels tick).2.verdicts events :=
            congrArg ((rule.holds channels, tick) :: ·)
              (verdicts_of_config config.symm events)
          rw [verdicts, changes_cons, after_cons, List.cons_append,
            Outcome.behind_append, run_step, ih later]
          rfl
      | reload limits =>
          obtain ⟨valid, kept⟩ := reloads limits List.mem_cons_self
          rw [List.cons_append, run_reload, reload_accepted valid kept]
          exact ih later

/-- The edges of a rule are the changes of its verdicts, wherever it is saved
and restored in between. -/
theorem edges_are_changes (rule : Rule) (events : List RuleEvent)
    (reloads : ∀ limits, .reload limits ∈ events →
      rule.config.validate limits = .ok () ∧
      (rule.config.spec.multiplier.isFinite = true →
        rule.config.spec.multiplier.ReadsBack)) :
    ∃ edges last, rule.run events = some (.ok (edges, last)) ∧
      edges = ((rule.previousResult :: (rule.verdicts events).map Prod.fst).zip
        (rule.verdicts events)).filterMap (fun (before, now, tick) =>
          if now = before then none
          else some
            ⟨rule.id, now, rule.config.action, rule.config.spec, tick⟩) ∧
      (rule.previousResult :: edges.map RuleEdge.rising).IsChain (· ≠ ·) ∧
      last.id = rule.id ∧ last.config = rule.config ∧
      last.previousResult =
        ((rule.verdicts events).getLast?.map Prod.fst).getD
          rule.previousResult ∧
      last.lastFired = (edges.getLast?.map RuleEdge.tick).or rule.lastFired ∧
      ∀ limits cause, rule.config.validate limits = .error cause →
        restore last.snapshot limits = .error cause ∧
        (rule.config.spec.multiplier.ReadsBack →
          ∀ more, rule.run (events ++ .reload limits :: more) =
            some (.error cause)) := by
  refine ⟨rule.changes (rule.verdicts events),
    rule.after (rule.verdicts events), ?_, rfl, rule.isChain_changes _, rfl,
    rfl, rfl, rfl, ?_⟩
  · have ended := run_append reloads []
    rw [List.append_nil] at ended
    rw [ended]
    show some (Except.ok (_ ++ [], _)) = _
    rw [List.append_nil]
  · intro limits cause refused
    constructor
    · rw [restore_snapshot]
      show (rule.config.validate limits).map _ = _
      rw [refused]
      rfl
    · intro kept more
      have reloaded : (rule.after (rule.verdicts events)).reload limits =
          some (.error cause) := by
        rw [reload_eq
          (show (rule.after _).config.spec.multiplier.ReadsBack from kept)]
        show some ((rule.config.validate limits).map _) = _
        rw [refused]
        rfl
      rw [run_append reloads, run_reload, reloaded]
      rfl

/-- Iron comes onto the wires and goes again, and the ticks go backwards.  The
saves before and after the verdict that changes nothing do not show; a save
under limits without room for the condition is where it ends. -/
theorem edges_are_changes_iron :
    let rule : Rule := .fresh ⟨3⟩ World.ironRule
    let carried : Channels :=
      ⟨.ofList [(.ofName .item "iron-plate", 5)], .empty⟩
    let events : List RuleEvent :=
      [.step ⟨.empty, .empty⟩ 9, .reload .default, .step ⟨.empty, .empty⟩ 8,
        .reload .default, .step carried 7]
    (∃ edges last, rule.run events = some (.ok (edges, last)) ∧
      edges.map (fun edge => (edge.rising, edge.tick)) =
        [(true, 9), (false, 7)] ∧
      last.previousResult = false ∧ last.lastFired = some 7) ∧
    rule.run (events ++ [.reload ⟨32, 0⟩]) =
      some (.error (.tooManyConditions 0 1)) := by
  intro rule carried events
  have short : rule.config.spec.multiplier.IsShort := by decide +kernel
  have accepted : World.ironRule.validate .default = .ok () := rfl
  have reloads : ∀ limits, RuleEvent.reload limits ∈ events →
      rule.config.validate limits = .ok () ∧
        (rule.config.spec.multiplier.isFinite = true →
          rule.config.spec.multiplier.ReadsBack) := by
    intro limits listed
    have same : limits = .default := by simpa [events] using listed
    subst same
    exact ⟨accepted, fun _ => short.readsBack⟩
  obtain ⟨edges, last, ran, changes, _, _, _, result, fired, refused⟩ :=
    edges_are_changes rule events reloads
  have verdicts : rule.verdicts events =
      [(true, 9), (true, 8), (false, 7)] := by rfl
  rw [verdicts] at changes result
  subst changes
  exact ⟨⟨_, last, ran, rfl, result, fired⟩,
    (refused ⟨32, 0⟩ _ rfl).2 short.readsBack []⟩

end Rule

end CircuitSections
