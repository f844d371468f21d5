import CircuitSections.Proofs.Combinator.Pass
import CircuitSections.Proofs.Condition.Reading
import CircuitSections.Proofs.Ordered.Keys

/-!
# The policy of a combinator

What the rules of a combinator ask for is a matter of what its channels carry
now.  A pass knows it from the results that the rules remember, which is the
same thing right after the rules were stepped (`stepped_desired`), though a pass
reads only the channels that some condition sees.
-/

namespace CircuitSections

/-- What the two channels of a combinator carry. -/
def MemoryHost.channelsOf (host : MemoryHost) (id : CombinatorId) : Channels :=
  ⟨host.channels id .red, host.channels id .green⟩

namespace Rule

variable (rule : Rule) (channels : Channels) (tick : UInt64)

@[simp]
theorem step_config : (rule.step channels tick).2.config = rule.config := by
  simp only [step, observe]
  split <;> rfl

@[simp]
theorem step_previousResult :
    (rule.step channels tick).2.previousResult = rule.holds channels := by
  simp only [step, observe]
  split
  next same => exact same.symm
  next => rfl

theorem step_eq_none_iff :
    (rule.step channels tick).1 = none ↔
      rule.previousResult = rule.holds channels := by
  simp only [step, observe]
  split
  next same => simp [same]
  next changed => simp [Ne.symm changed]

theorem step_of_none {rule : Rule} {channels : Channels} {tick : UInt64}
    (still : (rule.step channels tick).1 = none) :
    (rule.step channels tick).2 = rule := by
  simp only [step, observe] at still ⊢
  split at still
  next same => rw [if_pos same]
  next => cases still

theorem holds_of_config {rule other : Rule} (same : rule.config = other.config)
    (channels : Channels) : rule.holds channels = other.holds channels := by
  rw [holds, holds, same]

end Rule

namespace Combinator

/-- The sections that the rules ask for while the channels carry what they do:
none if a clearing rule holds, and else those of the injecting rules that
hold. -/
def policy (combinator : Combinator) (channels : Channels) : SpecSet :=
  if combinator.rules.any fun rule =>
    rule.holds channels && rule.config.action = .remove then
    .empty
  else
    .ofList ((combinator.rules.filter fun rule =>
      rule.holds channels && rule.config.action = .inject).map fun rule =>
        rule.config.spec)

/-- Where the remembered results are those of the channels, the desired sections
are those of the policy. -/
theorem desired_eq_policy {combinator : Combinator} {channels : Channels}
    (known : ∀ rule ∈ combinator.rules, rule.previousResult =
      rule.holds channels) :
    combinator.desired = combinator.policy channels := by
  have clearing : combinator.rules.any Rule.isClearing =
      combinator.rules.any fun rule =>
        rule.holds channels && rule.config.action = .remove := by
    rw [Bool.eq_iff_iff, List.any_eq_true, List.any_eq_true]
    refine exists_congr fun rule => and_congr_right fun member => ?_
    rw [Rule.isClearing, known rule member]
  have injecting : combinator.rules.filter Rule.isInjecting =
      combinator.rules.filter fun rule =>
        rule.holds channels && rule.config.action = .inject := by
    refine List.filter_congr fun rule member => ?_
    rw [Rule.isInjecting, known rule member]
  rw [desired, policy, clearing, injecting]

theorem mem_desired {combinator : Combinator} {spec : SectionSpec}
    (wanted : spec ∈ combinator.desired.toList) :
    ∃ rule ∈ combinator.rules, rule.config.action = .inject ∧
      rule.config.spec = spec := by
  unfold desired at wanted
  split at wanted
  · exact absurd wanted List.not_mem_nil
  · obtain ⟨rule, member, same⟩ :=
      List.mem_map.mp (Ascending.mem_of_mem_ofList wanted)
    obtain ⟨held, injecting⟩ := List.mem_filter.mp member
    simp only [Rule.isInjecting, Bool.and_eq_true,
      decide_eq_true_eq] at injecting
    exact ⟨rule, held, injecting.2, same⟩

section Stepped

variable (combinator : Combinator) (tick : UInt64)
  (channels : Channel → SignalStore)
  (targets : List TargetId)

/-- On what was read, rules have the same verdict as on all that the channels
carry. -/
theorem holds_refreshed {combinator : Combinator} {rule : Rule}
    (member : rule ∈ combinator.rules) :
    rule.holds (combinator.refreshed channels targets).channels =
      rule.holds ⟨channels .red, channels .green⟩ :=
  Rule.holds_keeping member ⟨channels .red, channels .green⟩

theorem stepped_rules : (combinator.stepped tick channels targets).rules =
    combinator.rules.map fun rule =>
      (rule.step (combinator.refreshed channels targets).channels tick).2 := by
  simp only [stepped, stepRules, refreshed, List.map_map]
  rfl

theorem mem_stepped_rules {combinator : Combinator} {rule : Rule}
    (member : rule ∈ (combinator.stepped tick channels targets).rules) :
    rule.previousResult = rule.holds ⟨channels .red, channels .green⟩ ∧
      ∃ old ∈ combinator.rules, old.config = rule.config := by
  rw [stepped_rules] at member
  obtain ⟨old, listed, rfl⟩ := List.mem_map.mp member
  constructor
  · rw [Rule.step_previousResult, holds_refreshed channels targets listed]
    exact Rule.holds_of_config (Rule.step_config _ _ _).symm _
  · exact ⟨old, listed, (Rule.step_config _ _ _).symm⟩

theorem stepped_desired : (combinator.stepped tick channels targets).desired =
    (combinator.stepped tick channels targets).policy
      ⟨channels .red, channels .green⟩ :=
  desired_eq_policy fun _ member =>
    (mem_stepped_rules tick channels targets member).1

theorem fired_eq_nil_iff : combinator.fired tick channels targets = [] ↔
    ∀ rule ∈ combinator.rules,
      rule.previousResult = rule.holds ⟨channels .red, channels .green⟩ := by
  simp only [fired, stepRules, List.filterMap_eq_nil_iff, List.mem_map,
    forall_exists_index, and_imp, forall_apply_eq_imp_iff₂]
  show (∀ rule ∈ combinator.rules, _) ↔ _
  refine forall₂_congr fun rule member => ?_
  rw [Rule.step_eq_none_iff, holds_refreshed channels targets member]

theorem stepped_rules_of_fired {combinator : Combinator}
    (still : combinator.fired tick channels targets = []) :
    (combinator.stepped tick channels targets).rules = combinator.rules := by
  rw [stepped_rules]
  have same : ∀ rule ∈ combinator.rules,
      (rule.step (combinator.refreshed channels targets).channels tick).2 =
        rule := by
    intro rule member
    apply Rule.step_of_none
    rw [Rule.step_eq_none_iff, holds_refreshed channels targets member]
    exact (fired_eq_nil_iff combinator tick channels targets).mp
      still rule member
  rw [List.map_congr_left same, List.map_id']

/-- Where no rule fires, all that a combinator does in the middle of a pass is
to read. -/
theorem stepped_eq_refreshed {combinator : Combinator}
    (still : combinator.fired tick channels targets = []) :
    combinator.stepped tick channels targets =
      combinator.refreshed channels targets := by
  have rules := stepped_rules_of_fired tick channels targets still
  calc
    combinator.stepped tick channels targets =
        { combinator.refreshed channels targets with
          rules := (combinator.stepped tick channels targets).rules } := rfl
    _ = combinator.refreshed channels targets := by
        rw [rules]
        rfl

end Stepped

end Combinator

end CircuitSections
