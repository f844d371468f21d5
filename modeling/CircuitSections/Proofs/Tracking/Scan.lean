import CircuitSections.Proofs.Section.Order
import CircuitSections.Proofs.Tracking.Entries

/-!
# The scan of one target

What an owner has on a target is found by a scan that starts at the first key of
the target and stops behind the last one.  It finds the same as a scan of the
whole ledger, because the keys are in a total order in which those of one target
stand together.
-/

namespace CircuitSections

/-- What a spec on a target stands by in ascending order: the target's number,
then the spec. -/
def SectionSpec.standingOn (target : TargetId) (spec : SectionSpec) :
    ℕ ×ₗ List ℕ ×ₗ WithTop (WithBot (WithTop ℚ)) :=
  toLex (target.number.toNat, spec.standing)

namespace SlotKey

variable {here there : TargetId} {a b : SectionSpec}

theorem compare_target_eq_lt_iff :
    compare here there = .lt ↔ here.number.toNat < there.number.toNat := by
  show compareOfLessAndEq here.number there.number = .lt ↔ _
  rw [compareOfLessAndEq_eq_lt, UInt64.lt_iff_toNat_lt]

theorem compare_eq_lt_iff :
    compare (⟨here, a.key⟩ : SlotKey) ⟨there, b.key⟩ = .lt ↔
      a.standingOn here < b.standingOn there := by
  rw [SectionSpec.standingOn, SectionSpec.standingOn, Prod.Lex.toLex_lt_toLex,
    SectionSpec.standing_lt_iff, ← compare_target_eq_lt_iff]
  have targets : here.number.toNat = there.number.toNat ↔
      compare here there = .eq := by
    rw [Std.LawfulEqOrd.compare_eq_iff_eq, UInt64.toNat_inj]
    cases here
    cases there
    simp
  rw [targets]
  exact Ordering.then_eq_lt

theorem standingOn_eq_iff :
    a.standingOn here = b.standingOn there ↔ here = there ∧
      a.same b = true := by
  rw [SectionSpec.standingOn, SectionSpec.standingOn,
    toLex.injective.eq_iff, Prod.mk.injEq, UInt64.toNat_inj,
    SectionSpec.standing_eq_iff, SectionSpec.same, decide_eq_true_eq]
  cases here
  cases there
  simp

theorem compare_eq_eq_iff :
    compare (⟨here, a.key⟩ : SlotKey) ⟨there, b.key⟩ = .eq ↔ here = there ∧
      a.same b = true := by
  rw [Std.LawfulEqOrd.compare_eq_iff_eq, SlotKey.mk.injEq, SectionSpec.same,
    decide_eq_true_eq]

end SlotKey

namespace Ledger

/-- The slots of an owner on a target, found by a scan of the whole ledger. -/
def slotsOf (ledger : Ledger) (owner : CombinatorId) (target : TargetId) :
    List LedgerSlot :=
  ledger.slots.toList.filter fun slot =>
    slot.tracked.owner = owner && slot.tracked.target = target

/-- The scan of one target lists the specs that the scan of the whole ledger
finds, in their order. -/
theorem toList_ownedSpecs (ledger : Ledger) (owner : CombinatorId)
    (target : TargetId) :
    (ledger.ownedSpecs owner target).toList =
      (ledger.slotsOf owner target).map LedgerSlot.spec := by
  have found :
      ((ledger.slotsOn target).filter fun slot => slot.tracked.owner = owner) =
        ledger.slotsOf owner target := by
    rw [slotsOn_eq_filter, List.filter_filter, slotsOf]
  rw [ownedSpecs, found]
  apply Ascending.toList_ofList
  have ascending : (ledger.slotsOf owner target).Pairwise fun a b =>
      compare a.key b.key = .lt :=
    ledger.slots.ascending.sublist List.filter_sublist
  refine List.pairwise_map.mpr
    (ascending.imp_of_mem fun {a b} left right below => ?_)
  -- Both slots are on the target, so it is the specs that tell them apart.
  have onTarget {slot : LedgerSlot}
      (member : slot ∈ ledger.slotsOf owner target) :
      slot.tracked.target = target := by
    have passed := (List.mem_filter.mp member).2
    rw [Bool.and_eq_true, decide_eq_true_eq, decide_eq_true_eq] at passed
    exact passed.2
  rcases Ordering.then_eq_lt.mp below with targetBelow | ⟨_, specBelow⟩
  · simp [LedgerSlot.key, TrackedSection.place, compareOn, onTarget left,
      onTarget right]
      at targetBelow
  · rw [a.agrees, b.agrees]
    exact specBelow

/-- The scan of one target finds every spec that its owner has there, and no
other: the same, in the same order and spelling, as a scan of the whole ledger.
For the keys are in the total order of the target's number, then the bytes of
the name, then the number that the multiplier denotes, in which keys agree if
their specs do, and the scan starts below all keys of the target. -/
theorem scan_finds_all (ledger : Ledger) (owner : CombinatorId)
    (target : TargetId) :
    (ledger.ownedSpecs owner target).toList =
        (ledger.slotsOf owner target).map LedgerSlot.spec ∧
      (∀ spec : SectionSpec, (ledger.ownedSpecs owner target).contains
        spec.key = true ↔
        ∃ entry ∈ ledger.entries, entry.owner = owner ∧ entry.target = target ∧
          entry.spec.same spec = true) ∧
      (∀ spec : SectionSpec,
        compare (⟨target, spec.key⟩ : SlotKey) (.first target) ≠ .lt) ∧
      ∀ (here there : TargetId) (a b : SectionSpec),
        (compare (⟨here, a.key⟩ : SlotKey) ⟨there, b.key⟩ = .lt ↔
          a.standingOn here < b.standingOn there) ∧
        (compare (⟨here, a.key⟩ : SlotKey) ⟨there, b.key⟩ = .eq ↔ here = there ∧
          a.same b = true) ∧
        (a.standingOn here = b.standingOn there ↔ here = there ∧
          a.same b = true) := by
  refine ⟨ledger.toList_ownedSpecs owner target, ?_,
    SlotKey.first_le target, ?_⟩
  · intro spec
    rw [contains_ownedSpecs]
    simp only [Owns, TrackedSection.place, SlotKey.mk.injEq, SectionSpec.same,
      decide_eq_true_eq]
  · intro here there a b
    exact ⟨SlotKey.compare_eq_lt_iff, SlotKey.compare_eq_eq_iff,
      SlotKey.standingOn_eq_iff⟩

end Ledger

end CircuitSections
