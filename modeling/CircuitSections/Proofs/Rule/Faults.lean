import CircuitSections.Proofs.Decimal.Value
import CircuitSections.Proofs.Text.Trimmed
import CircuitSections.Rule.Config
import Mathlib.Data.Prod.Lex

/-!
# Faults of configurations

The checks that a configuration may fail and the order in which they are made:
the number of conditions, then the conditions one after the other, then the
section (`RuleCheck.place`).  A sequence of checks reports the first fault of
all of them if each reports its own first one and none of the later ones comes
before an earlier one (`Reports.bind`), so the statement on configurations is
put together along the code that validates them.
-/

namespace CircuitSections

/-- A named signal without a name. -/
def Selector.Nameless (selector : Selector) : Prop :=
  ∃ s, selector = .signal s ∧ Text.Blank s.name.toList

/-- What is checked of a configuration. -/
inductive RuleCheck
  | conditionCount
  | leftName (index : Nat)
  | rightName (index : Nat)
  | rightQuantifier (index : Nat)
  | combine (index : Nat)
  | groupName
  | groupNameLength
  | multiplier
  deriving DecidableEq

/-- The place of a check among all of them: first the number of conditions, then
the conditions by their index, with four checks each, and at last the
section. -/
def RuleCheck.place : RuleCheck → ℕ ×ₗ ℕ ×ₗ ℕ
  | .conditionCount => toLex (0, toLex (0, 0))
  | .leftName index => toLex (1, toLex (index, 0))
  | .rightName index => toLex (1, toLex (index, 1))
  | .rightQuantifier index => toLex (1, toLex (index, 2))
  | .combine index => toLex (1, toLex (index, 3))
  | .groupName => toLex (2, toLex (0, 0))
  | .groupNameLength => toLex (2, toLex (0, 1))
  | .multiplier => toLex (2, toLex (0, 2))

theorem RuleCheck.place_injective : Function.Injective place := by
  intro check other same
  cases check <;> cases other <;> simp_all [place]

/-- The checks that a condition fails at the index of its list, and what is
reported of each. -/
inductive Condition.Faulty (condition : Condition) (index : Nat) :
    RuleCheck → ValidationError → Prop
  | leftName : condition.left.selector.Nameless →
      Faulty condition index (.leftName index) .blankSignalName
  | rightName {operand : SignalOperand} : condition.right = .signal operand →
      operand.selector.Nameless →
        Faulty condition index (.rightName index) .blankSignalName
  | quantifier {operand : SignalOperand} : condition.right = .signal operand →
      operand.selector = .anything ∨ operand.selector = .everything →
      Faulty condition index (.rightQuantifier index)
        (.quantifierOnRight index operand.selector)
  | each {operand : SignalOperand} : condition.right = .signal operand →
      operand.selector = .each → condition.left.selector ≠ .each →
      Faulty condition index (.rightQuantifier index) (.eachWithoutEach index)
  | combine : 0 < index → condition.combine = none →
      Faulty condition index (.combine index) (.missingCombineOp index)

/-- The checks that a section spec fails. -/
inductive SectionSpec.Faulty (spec : SectionSpec) : RuleCheck →
    ValidationError → Prop
  | name : Text.Blank spec.name.toList → Faulty spec .groupName .blankGroupName
  | length {core : List Char} : Text.Trimmed spec.name.toList core →
      256 < (String.ofList core).utf8ByteSize →
      Faulty spec .groupNameLength (.groupNameTooLong 256)
  | multiplier : ¬ spec.multiplier.Positive →
      Faulty spec .multiplier (.multiplierOutOfRange spec.multiplier)

/-- The checks that a configuration fails under the limits. -/
inductive RuleConfig.Faulty (config : RuleConfig) (limits : Limits) :
    RuleCheck → ValidationError → Prop
  | count : limits.conditionsPerRule.toNat < config.conditions.length →
      Faulty config limits .conditionCount
        (.tooManyConditions limits.conditionsPerRule.toNat
          config.conditions.length)
  | condition {index : Nat} {condition : Condition} {check : RuleCheck}
      {cause : ValidationError} : config.conditions[index]? = some condition →
      condition.Faulty index check cause → Faulty config limits check cause
  | spec {check : RuleCheck} {cause : ValidationError} :
      config.spec.Faulty check cause →
      Faulty config limits check cause

/-! ### First faults -/

/-- A check accepts what has no fault, and otherwise reports a fault that none
precedes. -/
structure Reports (answer : Except ValidationError Unit)
    (faulty : RuleCheck → ValidationError → Prop) : Prop where
  accepts : answer = .ok () → ∀ check cause, ¬ faulty check cause
  first : ∀ cause, answer = .error cause → ∃ check, faulty check cause ∧
    ∀ other otherCause, faulty other otherCause → check.place ≤ other.place

namespace Reports

variable {answer later : Except ValidationError Unit}
  {faulty laterFaulty : RuleCheck → ValidationError → Prop}

theorem nothing : Reports (.ok ()) fun _ _ => False where
  accepts _ _ _ := id
  first _ failed := nomatch failed

theorem single (fails : Prop) [Decidable fails] (check : RuleCheck)
    (cause : ValidationError) :
    Reports (if fails then .error cause else .ok ()) fun other otherCause =>
      other = check ∧ otherCause = cause ∧ fails where
  accepts accepted other otherCause fault := by
    rw [if_pos fault.2.2] at accepted
    cases accepted
  first reported failed := by
    split at failed
    next fault =>
      cases failed
      refine ⟨check, ⟨rfl, rfl, fault⟩, fun other otherCause otherFault => ?_⟩
      rw [otherFault.1]
    next => cases failed

theorem congr (reports : Reports answer faulty)
    (same : ∀ check cause, faulty check cause ↔ laterFaulty check cause) :
    Reports answer laterFaulty := by
  have equal : faulty = laterFaulty := by
    funext check cause
    exact propext (same check cause)
  exact equal ▸ reports

/-- Checks one after the other report the first fault of all. -/
theorem bind (first : Reports answer faulty)
    (second : Reports later laterFaulty)
    (order : ∀ check cause other otherCause, faulty check cause →
      laterFaulty other otherCause →
      check.place ≤ other.place) :
    Reports (answer >>= fun _ => later) fun check cause =>
      faulty check cause ∨ laterFaulty check cause := by
  cases answer with
  | ok _ =>
      have sound := first.accepts rfl
      refine ⟨fun accepted check cause fault => ?_, fun cause failed => ?_⟩
      · exact fault.elim (sound check cause)
          (second.accepts accepted check cause)
      · obtain ⟨check, fault, least⟩ := second.first cause failed
        refine ⟨check, .inr fault, fun other otherCause otherFault => ?_⟩
        rcases otherFault with early | late
        · exact absurd early (sound other otherCause)
        · exact least other otherCause late
  | error reported =>
      refine ⟨fun accepted => (nomatch accepted), fun cause failed => ?_⟩
      have same : (Except.error reported : Except ValidationError Unit) =
          .error cause := failed
      obtain ⟨check, fault, least⟩ := first.first cause same
      refine ⟨check, .inl fault, fun other otherCause otherFault => ?_⟩
      rcases otherFault with early | late
      · exact least other otherCause early
      · exact order check cause other otherCause fault late

theorem accepts_iff (reports : Reports answer faulty) :
    answer = .ok () ↔ ∀ check cause, ¬ faulty check cause := by
  refine ⟨reports.accepts, fun sound => ?_⟩
  cases answer with
  | ok _ => rfl
  | error cause =>
      obtain ⟨check, fault, _⟩ := reports.first cause rfl
      exact absurd fault (sound check cause)

/-- Where a check has one cause, the first fault is all that is reported. -/
theorem first_iff (reports : Reports answer faulty)
    (unique : ∀ check cause other, faulty check cause →
      faulty check other → cause = other)
    (cause : ValidationError) :
    answer = .error cause ↔ ∃ check, faulty check cause ∧
      ∀ other otherCause, faulty other otherCause →
        check.place ≤ other.place := by
  refine ⟨reports.first cause, fun firstFault => ?_⟩
  obtain ⟨check, fault, least⟩ := firstFault
  cases answer with
  | ok _ => exact absurd fault (reports.accepts rfl check cause)
  | error reported =>
      obtain ⟨other, otherFault, otherLeast⟩ := reports.first reported rfl
      have same : check = other := RuleCheck.place_injective
        (le_antisymm (least other reported otherFault)
          (otherLeast check cause fault))
      subst same
      rw [unique check cause reported fault otherFault]

end Reports

/-! ### Conditions -/

theorem Selector.reports_checkName (selector : Selector) (check : RuleCheck) :
    Reports selector.checkName fun other cause =>
      other = check ∧ cause = .blankSignalName ∧ selector.Nameless := by
  cases selector with
  | signal s =>
      have nameless : Text.trim s.name.toList = [] ↔
          (Selector.signal s).Nameless := by
        rw [Text.trim_eq_nil_iff]
        constructor
        · exact fun blank => ⟨s, rfl, blank⟩
        · intro nameless
          obtain ⟨_, ⟨⟩, blank⟩ := nameless
          exact blank
      refine (Reports.single _ check .blankSignalName).congr fun other cause =>
        ?_
      rw [nameless]
  | each | anything | everything =>
      refine Reports.nothing.congr fun other cause => ?_
      simp [Nameless]

theorem Selector.reports_checkRight (right left : Selector) (index : Nat) :
    Reports (right.checkRight left index) fun check cause =>
      check = .rightQuantifier index ∧
        ((right = .anything ∨ right = .everything) ∧
          cause = .quantifierOnRight index right ∨
          right = .each ∧ left ≠ .each ∧ cause = .eachWithoutEach index) := by
  cases right with
  | signal s =>
      refine Reports.nothing.congr fun check cause => ?_
      simp
  | each =>
      have bound : left.isEach = true ↔ left = .each := by
        cases left <;> simp [isEach]
      have fault :
          (if left.isEach = true then .ok ()
            else .error (.eachWithoutEach index)) =
            (if left ≠ .each then .error (.eachWithoutEach index)
              else .ok () : Except ValidationError Unit) := by
        rw [ite_not]
        exact if_congr bound rfl rfl
      have reports := Reports.single (left ≠ .each) (.rightQuantifier index)
        (.eachWithoutEach index)
      rw [← fault] at reports
      refine reports.congr fun check cause => ?_
      simp
      tauto
  | anything | everything =>
      refine (Reports.single True (.rightQuantifier index)
        (.quantifierOnRight index _)).congr fun check cause => ?_
      simp

namespace Condition

theorem Faulty.unique {condition : Condition} {index otherIndex : Nat}
    {other : Condition} {check : RuleCheck} {cause otherCause : ValidationError}
    (fault : condition.Faulty index check cause)
    (otherFault : other.Faulty otherIndex check otherCause)
    (same : index = otherIndex → condition = other) : cause = otherCause := by
  cases fault with
  | leftName => cases otherFault; rfl
  | rightName => cases otherFault; rfl
  | combine => cases otherFault; rfl
  | quantifier found picked =>
      cases otherFault with
      | quantifier otherFound _ =>
          cases same rfl
          cases found.symm.trans otherFound
          rfl
      | each otherFound each _ =>
          cases same rfl
          cases found.symm.trans otherFound
          simp [each] at picked
  | each found each _ =>
      cases otherFault with
      | quantifier otherFound picked =>
          cases same rfl
          cases found.symm.trans otherFound
          simp [each] at picked
      | each => rfl

theorem reports_checkRight (condition : Condition) (index : Nat) :
    Reports (condition.checkRight index) fun check cause =>
      ∃ operand, condition.right = .signal operand ∧
        ((check = .rightName index ∧ cause = .blankSignalName ∧
          operand.selector.Nameless) ∨
          check = .rightQuantifier index ∧
            ((operand.selector = .anything ∨ operand.selector = .everything) ∧
                cause = .quantifierOnRight index operand.selector ∨
              operand.selector = .each ∧ condition.left.selector ≠ .each ∧
                cause = .eachWithoutEach index)) := by
  obtain ⟨left, comparator, right, combine⟩ := condition
  cases right with
  | constant value =>
      refine Reports.nothing.congr fun check cause => ?_
      simp
  | signal operand =>
      have named := operand.selector.reports_checkName (.rightName index)
      have bound := operand.selector.reports_checkRight left.selector index
      refine (named.bind bound ?_).congr fun check cause => ?_
      · intro check cause other otherCause fault laterFault
        rw [fault.1, laterFault.1]
        simp [RuleCheck.place, Prod.Lex.toLex_le_toLex]
      · simp

theorem reports_checkCombine (condition : Condition) (index : Nat) :
    Reports (condition.checkCombine index) fun check cause =>
      check = .combine index ∧ cause = .missingCombineOp index ∧
        0 < index ∧ condition.combine = none :=
  Reports.single _ (.combine index) (.missingCombineOp index)

theorem reports_validate (condition : Condition) (index : Nat) :
    Reports (condition.validate index) (condition.Faulty index) := by
  have left := condition.left.selector.reports_checkName (.leftName index)
  have right := condition.reports_checkRight index
  have combine := condition.reports_checkCombine index
  refine (left.bind (right.bind combine ?_) ?_).congr fun check cause => ?_
  · intro check cause other otherCause fault laterFault
    obtain ⟨operand, _, ⟨rfl, _⟩ | ⟨rfl, _⟩⟩ := fault
    all_goals
      rw [laterFault.1]
      simp [RuleCheck.place, Prod.Lex.toLex_le_toLex]
  · intro check cause other otherCause fault laterFault
    rw [fault.1]
    rcases laterFault with ⟨operand, _, ⟨rfl, _⟩ | ⟨rfl, _⟩⟩ | ⟨rfl, _⟩
    all_goals simp [RuleCheck.place, Prod.Lex.toLex_le_toLex]
  · constructor
    · intro fault
      rcases fault with ⟨rfl, rfl, nameless⟩ | ⟨operand, found, fault⟩ |
        ⟨rfl, rfl, later, none⟩
      · exact .leftName nameless
      · rcases fault with ⟨rfl, rfl, nameless⟩ |
          ⟨rfl, ⟨picked, rfl⟩ | ⟨each, apart, rfl⟩⟩
        · exact .rightName found nameless
        · exact .quantifier found picked
        · exact .each found each apart
      · exact .combine later none
    · intro fault
      cases fault with
      | leftName nameless => exact .inl ⟨rfl, rfl, nameless⟩
      | rightName found nameless =>
          exact .inr (.inl ⟨_, found, .inl ⟨rfl, rfl, nameless⟩⟩)
      | quantifier found picked =>
          exact .inr (.inl ⟨_, found, .inr ⟨rfl, .inl ⟨picked, rfl⟩⟩⟩)
      | each found each apart =>
          exact .inr (.inl ⟨_, found, .inr ⟨rfl, .inr ⟨each, apart, rfl⟩⟩⟩)
      | combine later none => exact .inr (.inr ⟨rfl, rfl, later, none⟩)

theorem Faulty.place_eq {condition : Condition} {index : Nat}
    {check : RuleCheck} {cause : ValidationError}
    (fault : condition.Faulty index check cause) :
    ∃ part, check.place = toLex (1, toLex (index, part)) := by
  cases fault <;> exact ⟨_, rfl⟩

/-- Conditions are checked one after the other, each at its index. -/
theorem reports_validateFrom (conditions : List Condition) (start : Nat) :
    Reports (validateFrom start conditions) fun check cause =>
      ∃ (index : Nat) (condition : Condition), conditions[index]? =
        some condition ∧
        condition.Faulty (start + index) check cause := by
  induction conditions generalizing start with
  | nil =>
      refine Reports.nothing.congr fun check cause => ?_
      simp
  | cons first rest ih =>
      refine ((first.reports_validate start).bind (ih (start + 1)) ?_).congr
        fun check cause => ?_
      · intro check cause other otherCause fault laterFault
        obtain ⟨index, condition, _, laterFault⟩ := laterFault
        obtain ⟨part, place⟩ := fault.place_eq
        obtain ⟨laterPart, laterPlace⟩ := laterFault.place_eq
        have before : start < start + 1 + index := by omega
        rw [place, laterPlace]
        simp [Prod.Lex.toLex_le_toLex, before]
      · constructor
        · intro fault
          rcases fault with here | ⟨index, condition, found, later⟩
          · exact ⟨0, first, rfl, here⟩
          · refine ⟨index + 1, condition, found, ?_⟩
            rwa [Nat.add_assoc, Nat.add_comm 1 index] at later
        · intro fault
          obtain ⟨index, condition, found, fault⟩ := fault
          cases index with
          | zero =>
              cases found
              exact .inl fault
          | succ index =>
              refine .inr ⟨index, condition, found, ?_⟩
              rwa [Nat.add_assoc, Nat.add_comm 1 index]

end Condition

/-! ### Sections -/

namespace SectionSpec

theorem Faulty.unique {spec : SectionSpec} {check : RuleCheck}
    {cause other : ValidationError} (fault : spec.Faulty check cause)
    (otherFault : spec.Faulty check other) : cause = other := by
  cases fault <;> cases otherFault <;> rfl

theorem Faulty.place_eq {spec : SectionSpec} {check : RuleCheck}
    {cause : ValidationError} (fault : spec.Faulty check cause) :
    ∃ part, check.place = toLex (2, toLex (0, part)) := by
  cases fault <;> exact ⟨_, rfl⟩

theorem long_iff {text : List Char} :
    maxNameBytes < Text.byteLength (Text.trim text) ↔
      ∃ core, Text.Trimmed text core ∧
        256 < (String.ofList core).utf8ByteSize := by
  simp [Text.trimmed_iff, Text.byteLength_eq, maxNameBytes]

theorem reports_validate (spec : SectionSpec) :
    Reports spec.validate spec.Faulty := by
  have name := Reports.single (Text.trim spec.name.toList = []) .groupName
    .blankGroupName
  have length := Reports.single
    (maxNameBytes < Text.byteLength (Text.trim spec.name.toList))
      .groupNameLength
    (.groupNameTooLong maxNameBytes)
  have multiplier := Reports.single
    (¬ (spec.multiplier.isFinite ∧ 0 < spec.multiplier.rank)) .multiplier
    (.multiplierOutOfRange spec.multiplier)
  have steps : spec.validate =
      (if Text.trim spec.name.toList = [] then .error .blankGroupName
        else .ok ()) >>= fun _ =>
        (if maxNameBytes < Text.byteLength (Text.trim spec.name.toList) then
          .error (.groupNameTooLong maxNameBytes) else .ok ()) >>= fun _ =>
        (if ¬ (spec.multiplier.isFinite ∧ 0 < spec.multiplier.rank) then
          .error (.multiplierOutOfRange spec.multiplier) else .ok ()) := by
    rw [ite_not]
    unfold validate
    dsimp only
    split
    · rfl
    · split <;> rfl
  rw [steps]
  refine (name.bind (length.bind multiplier ?_) ?_).congr fun check cause => ?_
  · intro check cause other otherCause fault laterFault
    rw [fault.1, laterFault.1]
    simp [RuleCheck.place, Prod.Lex.toLex_le_toLex]
  · intro check cause other otherCause fault laterFault
    rw [fault.1]
    rcases laterFault with ⟨rfl, _⟩ | ⟨rfl, _⟩
    all_goals simp [RuleCheck.place, Prod.Lex.toLex_le_toLex]
  · rw [Text.trim_eq_nil_iff, long_iff, ← Multiplier.positive_iff_rank]
    constructor
    · intro fault
      rcases fault with ⟨rfl, rfl, blank⟩ | ⟨rfl, rfl, core, trimmed, long⟩ |
        ⟨rfl, rfl, improper⟩
      · exact .name blank
      · exact .length trimmed long
      · exact .multiplier improper
    · intro fault
      cases fault with
      | name blank => exact .inl ⟨rfl, rfl, blank⟩
      | length trimmed long => exact .inr (.inl ⟨rfl, rfl, _, trimmed, long⟩)
      | multiplier improper => exact .inr (.inr ⟨rfl, rfl, improper⟩)

end SectionSpec

/-! ### Configurations -/

namespace RuleConfig

theorem Faulty.unique {config : RuleConfig} {limits : Limits}
    {check : RuleCheck} {cause other : ValidationError}
    (fault : config.Faulty limits check cause)
    (otherFault : config.Faulty limits check other) : cause = other := by
  cases fault with
  | count =>
      cases otherFault with
      | count => rfl
      | condition _ fault => cases fault
      | spec fault => cases fault
  | condition found fault =>
      cases otherFault with
      | count => cases fault
      | condition otherFound otherFault =>
          apply fault.unique otherFault
          intro same
          rw [same, otherFound] at found
          exact (Option.some.inj found).symm
      | spec otherFault => cases fault <;> cases otherFault
  | spec fault =>
      cases otherFault with
      | count => cases fault
      | condition _ otherFault => cases fault <;> cases otherFault
      | spec otherFault => exact fault.unique otherFault

theorem reports_validate (config : RuleConfig) (limits : Limits) :
    Reports (config.validate limits) (config.Faulty limits) := by
  have count := Reports.single
    (limits.conditionsPerRule.toNat < config.conditions.length) .conditionCount
    (.tooManyConditions limits.conditionsPerRule.toNat config.conditions.length)
  have conditions := Condition.reports_validateFrom config.conditions 0
  have spec := config.spec.reports_validate
  have steps : config.validate limits =
      (if limits.conditionsPerRule.toNat < config.conditions.length then
        .error
          (.tooManyConditions limits.conditionsPerRule.toNat
            config.conditions.length)
        else .ok ()) >>= fun _ =>
          Condition.validateFrom 0 config.conditions >>= fun _ =>
            config.spec.validate := by
    unfold validate
    dsimp only
    split <;> rfl
  rw [steps]
  refine (count.bind (conditions.bind spec ?_) ?_).congr fun check cause => ?_
  · intro check cause other otherCause fault laterFault
    obtain ⟨index, condition, _, fault⟩ := fault
    obtain ⟨part, place⟩ := fault.place_eq
    obtain ⟨laterPart, laterPlace⟩ := laterFault.place_eq
    rw [place, laterPlace]
    simp [Prod.Lex.toLex_le_toLex]
  · intro check cause other otherCause fault laterFault
    rw [fault.1]
    rcases laterFault with ⟨index, condition, _, laterFault⟩ | laterFault
    all_goals
      obtain ⟨laterPart, laterPlace⟩ := laterFault.place_eq
      rw [laterPlace]
      simp [RuleCheck.place, Prod.Lex.toLex_le_toLex]
  · constructor
    · intro fault
      rcases fault with ⟨rfl, rfl, many⟩ |
        ⟨index, condition, found, fault⟩ | fault
      · exact .count many
      · rw [Nat.zero_add] at fault
        exact .condition found fault
      · exact .spec fault
    · intro fault
      cases fault with
      | count many => exact .inl ⟨rfl, rfl, many⟩
      | condition found fault =>
          refine .inr (.inl ⟨_, _, found, ?_⟩)
          rwa [Nat.zero_add]
      | spec fault => exact .inr (.inr fault)

end RuleConfig

end CircuitSections
