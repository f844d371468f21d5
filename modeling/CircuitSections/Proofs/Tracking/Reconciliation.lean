import CircuitSections.Combinator.Pass
import CircuitSections.Proofs.Host.Sections
import CircuitSections.Proofs.Tracking.Entries

/-!
# The edits of one target

On every host, removals track nothing new, and what is added under one spec
leaves the others alone.
-/

namespace CircuitSections

/-- The entries that the report lists as displaced, target by target. -/
def ReconcileReport.orphaned (report : ReconcileReport) : List TrackedSection :=
  report.targets.flatMap TargetReport.orphaned

@[simp]
theorem ReconcileReport.orphaned_append (first second : ReconcileReport) :
    (first ++ second).orphaned = first.orphaned ++ second.orphaned :=
  List.flatMap_append

namespace TargetWork

section General

variable {σ : Type} [SectionEditor σ] {owner : CombinatorId} {tick : UInt64}

theorem remove_target (work : TargetWork σ) (spec : SectionSpec) :
    (work.remove spec).report.target = work.report.target := by
  unfold TargetWork.remove
  split
  · rfl
  · dsimp only
    split <;> rfl

theorem removals_target (specs : List SectionSpec) (work : TargetWork σ) :
    (specs.foldl remove work).report.target = work.report.target := by
  induction specs generalizing work with
  | nil => rfl
  | cons spec rest induction =>
      exact (induction _).trans (remove_target work spec)

theorem inject_target (work : TargetWork σ) (spec : SectionSpec) :
    (inject owner tick work spec).report.target = work.report.target := by
  unfold inject
  dsimp only
  split <;> rfl

theorem injections_target (specs : List SectionSpec) (work : TargetWork σ) :
    (specs.foldl (inject owner tick) work).report.target =
      work.report.target := by
  induction specs generalizing work with
  | nil => rfl
  | cons spec rest induction =>
      exact (induction _).trans (inject_target work spec)

theorem mem_of_mem_remove {work : TargetWork σ} {spec : SectionSpec}
    {entry : TrackedSection}
    (member : entry ∈ (work.remove spec).ledger.entries) :
      entry ∈ work.ledger.entries := by
  unfold TargetWork.remove at member
  split at member
  · exact member
  · dsimp only at member
    split at member
    · exact (Ledger.mem_forget.mp member).1
    · exact (Ledger.mem_forget.mp member).1
    · exact (Ledger.mem_forget.mp member).1
    · exact member

theorem mem_of_mem_removals {specs : List SectionSpec} {work : TargetWork σ}
    {entry : TrackedSection}
    (member : entry ∈ (specs.foldl remove work).ledger.entries) :
    entry ∈ work.ledger.entries := by
  induction specs generalizing work with
  | nil => exact member
  | cons spec rest induction => exact mem_of_mem_remove (induction member)

theorem owns_of_owns_inject {work : TargetWork σ} {spec : SectionSpec}
    {key : SpecKey} (apart : spec.key ≠ key)
    (owns :
      (inject owner tick work spec).ledger.Owns owner work.report.target key) :
    work.ledger.Owns owner work.report.target key := by
  unfold inject at owns
  dsimp only at owns
  split at owns
  · rcases Ledger.owns_record.mp owns with ⟨_, place⟩ | ⟨old, _⟩
    · exact absurd (congrArg SlotKey.spec place) apart
    · exact old
  · exact owns

end General

end TargetWork

namespace Reconciliation

variable {σ : Type} [SectionEditor σ]

theorem target_target (owner : CombinatorId) (here : TargetId)
    (desired : SpecSet) (tick : UInt64) (ledger : Ledger) (host : σ) :
    (target owner here desired tick ledger host).1.target = here := by
  unfold target
  dsimp only
  split
  · split
    · rw [TargetWork.injections_target, TargetWork.removals_target]
      rfl
    · rfl
  · rfl

theorem map_target_targets (owner : CombinatorId) (desired : SpecSet)
    (tick : UInt64) (list : List TargetId) (ledger : Ledger) (host : σ) :
    (targets owner desired tick list ledger host).1.targets.map
      TargetReport.target = list := by
  induction list generalizing ledger host with
  | nil => rfl
  | cons first rest induction =>
      simp only [targets, List.map_cons, target_target]
      exact congrArg _ (induction _ _)

end Reconciliation

end CircuitSections
