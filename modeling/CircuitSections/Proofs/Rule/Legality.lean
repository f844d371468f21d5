import CircuitSections.Proofs.Rule.Faults

/-!
# Legal configurations

What a configuration may look like.  It is accepted exactly if it is legal, and
of one that is not the first fault is reported.
-/

namespace CircuitSections

/-- A condition may stand at the index of its list. -/
structure Condition.Legal (condition : Condition) (index : Nat) : Prop where
  leftNamed : ¬ condition.left.selector.Nameless
  rightNamed : ∀ operand, condition.right = .signal operand →
    ¬ operand.selector.Nameless
  rightBound : ∀ operand, condition.right = .signal operand →
    operand.selector ≠ .anything ∧ operand.selector ≠ .everything ∧
      (operand.selector = .each → condition.left.selector = .each)
  joined : index = 0 ∨ condition.combine.isSome = true

/-- The group name is there and short, and the multiplier is a number above
zero. -/
structure SectionSpec.Legal (spec : SectionSpec) : Prop where
  named : ∃ core, Text.Trimmed spec.name.toList core ∧ core ≠ [] ∧
    (String.ofList core).utf8ByteSize ≤ 256
  positive : spec.multiplier.Positive

structure RuleConfig.Legal (config : RuleConfig) (limits : Limits) : Prop where
  few : config.conditions.length ≤ limits.conditionsPerRule.toNat
  conditions : ∀ (index : Nat) (condition : Condition),
    config.conditions[index]? = some condition → condition.Legal index
  spec : config.spec.Legal

/-! ### Nothing but faults is illegal -/

theorem Condition.legal_iff {condition : Condition} {index : Nat} :
    condition.Legal index ↔
      ∀ check cause, ¬ condition.Faulty index check cause := by
  constructor
  · intro legal check cause fault
    cases fault with
    | leftName nameless => exact legal.leftNamed nameless
    | rightName found nameless => exact legal.rightNamed _ found nameless
    | quantifier found picked =>
        obtain ⟨notAnything, notEverything, _⟩ := legal.rightBound _ found
        exact picked.elim notAnything notEverything
    | each found each apart => exact apart ((legal.rightBound _ found).2.2 each)
    | combine later none =>
        rcases legal.joined with first | joined
        · omega
        · rw [none] at joined
          cases joined
  · intro sound
    refine ⟨fun nameless => sound _ _ (.leftName nameless),
      fun operand found nameless =>
        sound _ _ (.rightName found nameless), ?_, ?_⟩
    · intro operand found
      refine ⟨fun anything => sound _ _ (.quantifier found (.inl anything)),
        fun everything => sound _ _ (.quantifier found (.inr everything)),
        fun each => ?_⟩
      apply Decidable.byContradiction
      exact fun apart => sound _ _ (.each found each apart)
    · rcases Nat.eq_zero_or_pos index with first | later
      · exact .inl first
      · right
        apply Option.isSome_iff_ne_none.mpr
        exact fun none => sound _ _ (.combine later none)

theorem SectionSpec.legal_iff {spec : SectionSpec} :
    spec.Legal ↔ ∀ check cause, ¬ spec.Faulty check cause := by
  constructor
  · intro legal check cause fault
    obtain ⟨core, trimmed, shown, short⟩ := legal.named
    cases fault with
    | name blank =>
        rw [trimmed.eq_trim] at shown
        exact shown ((Text.trim_eq_nil_iff _).mpr blank)
    | length otherTrimmed long =>
        rw [otherTrimmed.eq_trim, ← trimmed.eq_trim] at long
        omega
    | multiplier improper => exact improper legal.positive
  · intro sound
    have trimmed := Text.trimmed_trim spec.name.toList
    refine ⟨⟨_, trimmed, ?_, ?_⟩, ?_⟩
    · exact fun none => sound _ _ (.name ((Text.trim_eq_nil_iff _).mp none))
    · exact Nat.le_of_not_lt fun long => sound _ _ (.length trimmed long)
    · apply Classical.byContradiction
      exact fun improper => sound _ _ (.multiplier improper)

namespace RuleConfig

theorem legal_iff {config : RuleConfig} {limits : Limits} :
    config.Legal limits ↔
      ∀ check cause, ¬ config.Faulty limits check cause := by
  constructor
  · intro legal check cause fault
    cases fault with
    | count many => exact Nat.not_lt.mpr legal.few many
    | condition found fault =>
        exact Condition.legal_iff.mp (legal.conditions _ _ found) _ _ fault
    | spec fault => exact SectionSpec.legal_iff.mp legal.spec _ _ fault
  · intro sound
    refine ⟨Nat.le_of_not_lt fun many => sound _ _ (.count many), ?_, ?_⟩
    · intro index condition found
      exact Condition.legal_iff.mpr fun check cause fault =>
        sound _ _ (.condition found fault)
    · exact SectionSpec.legal_iff.mpr fun check cause fault =>
        sound _ _ (.spec fault)

/-- A configuration is accepted exactly if it is legal under the limits.
Otherwise the first of its faults is reported, with the index of the condition
and the number of conditions that it is about.  Among others, no configuration
is accepted whose multiplier denotes no number, is infinite, is a zero of either
sign or is below zero. -/
theorem legal_or_first_fault (config : RuleConfig) (limits : Limits) :
    (config.validate limits = .ok () ↔ config.Legal limits) ∧
    (∀ cause, config.validate limits = .error cause ↔
      ∃ check, config.Faulty limits check cause ∧
        ∀ other otherCause, config.Faulty limits other otherCause →
          check.place ≤ other.place) ∧
    ((config.spec.multiplier.isNaN = true ∨
        config.spec.multiplier.magnitude = Binary64.infinity ∨
        config.spec.multiplier.magnitude = 0 ∨
          config.spec.multiplier.negative = true) →
      ∃ cause, config.validate limits = .error cause) := by
  have reports := config.reports_validate limits
  have accepted : config.validate limits = .ok () ↔ config.Legal limits :=
    reports.accepts_iff.trans legal_iff.symm
  refine ⟨accepted, reports.first_iff fun check cause other =>
    Faulty.unique, ?_⟩
  intro improper
  cases answer : config.validate limits with
  | ok _ =>
      exact absurd (accepted.mp answer).spec.positive
        (Multiplier.not_positive improper)
  | error cause => exact ⟨cause, rfl⟩

/-- Two conditions with several faults: `each` on the right of a named signal, a
blank signal name and no operator, above a blank group name and a multiplier
below zero. -/
def faulty : RuleConfig where
  conditions :=
    [.ofComparison (.ofSelector (.signal (.ofName .item "iron"))) .less
        (.signal (.ofSelector .each)),
        .ofComparison (.ofSelector (.signal (.ofName .item "\u00a0")))
        .less (.constant 1)]
  action := .inject
  spec := ⟨" ", .negativeInfinity⟩

/-- The first fault of the first condition is reported, and of many conditions
their number. -/
theorem legal_or_first_fault_faulty :
    (∃ check, faulty.Faulty .default check (.eachWithoutEach 0) ∧
      ∀ other cause, faulty.Faulty .default other cause →
        check.place ≤ other.place) ∧
    (∃ check, faulty.Faulty ⟨32, 1⟩ check (.tooManyConditions 1 2) ∧
      ∀ other cause, faulty.Faulty ⟨32, 1⟩ other cause →
        check.place ≤ other.place) ∧
    ∃ cause, faulty.validate .default = .error cause := by
  obtain ⟨_, reported, refused⟩ := legal_or_first_fault faulty .default
  obtain ⟨_, counted, _⟩ := legal_or_first_fault faulty ⟨32, 1⟩
  refine ⟨(reported _).mp (by decide +kernel),
    (counted _).mp (by decide +kernel), refused ?_⟩
  exact .inr (.inr (.inr (by decide +kernel)))

end RuleConfig

end CircuitSections
