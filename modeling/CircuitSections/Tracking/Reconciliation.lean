import CircuitSections.Tracking.EditPlan
import CircuitSections.Tracking.Report

/-!
# Reconciliation

A target is brought from what a combinator owns there to what it desires:
removals first, then additions.  The ledger changes only when the host confirms
an edit, and a failed edit is reported and does not keep the others from being
attempted.
-/

namespace CircuitSections

/-- The ledger, the host and the report on the target at work. -/
structure TargetWork (σ : Type) where
  ledger : Ledger
  host : σ
  report : TargetReport

namespace TargetWork

variable {σ : Type}

def confirmRemoval (work : TargetWork σ) (spec : SectionSpec) : TargetWork σ :=
  { work with
    ledger := (work.ledger.forget work.report.target spec).2
    report := { work.report with removed := work.report.removed ++ [spec] } }

/-- Tracks an added section and notes the entry that it displaced. -/
def confirmInjection (work : TargetWork σ) (owner : CombinatorId)
    (tick : UInt64) (spec : SectionSpec) (handle : SectionHandle) :
    TargetWork σ :=
  let (displaced, ledger) :=
    work.ledger.record ⟨work.report.target, spec, owner, handle, tick⟩
  { work with
    ledger
    report :=
      { work.report with
        injected := work.report.injected ++ [spec]
        orphaned := work.report.orphaned ++ displaced.toList } }

def noteFailure (work : TargetWork σ) (edit : SectionEdit) (spec : SectionSpec)
    (cause : HostError) : TargetWork σ :=
  { work with
    report := { work.report with
      failures := work.report.failures ++ [⟨edit, spec, cause⟩] } }

variable [SectionEditor σ]

/-- Removes a tracked section.  One that the host no longer has counts as
removed. -/
def remove (work : TargetWork σ) (spec : SectionSpec) : TargetWork σ :=
  match work.ledger.get? work.report.target spec with
  | none => work
  | some tracked =>
    let (answer, host) :=
      SectionEditor.removeSection work.report.target tracked.handle work.host
    let work := { work with host }
    match answer with
    | .ok _ => work.confirmRemoval spec
    | .error (.sectionNotFound _ _) => work.confirmRemoval spec
    | .error (.targetNotFound _) => work.confirmRemoval spec
    | .error cause => work.noteFailure .remove spec cause

def inject (owner : CombinatorId) (tick : UInt64) (work : TargetWork σ)
    (spec : SectionSpec) :
    TargetWork σ :=
  let (answer, host) :=
    SectionEditor.addSection work.report.target spec work.host
  let work := { work with host }
  match answer with
  | .ok handle => work.confirmInjection owner tick spec handle
  | .error cause => work.noteFailure .add spec cause

end TargetWork

namespace Reconciliation

variable {σ : Type} [SectionEditor σ]

/-- Brings one target to what its owner desires there. -/
def target (owner : CombinatorId) (target : TargetId) (desired : SpecSet)
    (tick : UInt64) (ledger : Ledger) (host : σ) : TargetReport × Ledger × σ :=
  let (alive, host) := SectionEditor.targetExists target host
  if alive then
    let (supported, host) := SectionEditor.supportsSections target host
    if supported then
      let plan := EditPlan.between (ledger.ownedSpecs owner target) desired
      let work : TargetWork σ := ⟨ledger, host, .without target .applied⟩
      let work := plan.remove.foldl TargetWork.remove work
      let work := plan.inject.foldl (TargetWork.inject owner tick) work
      (work.report, work.ledger, work.host)
    else (.without target .unsupported, ledger, host)
  else (.without target .vanished, (ledger.forgetOwnedOn owner target).2, host)

/-- Brings targets to what their owner desires, one after the other. -/
def targets (owner : CombinatorId) (desired : SpecSet) (tick : UInt64) :
    List TargetId → Ledger → σ → ReconcileReport × Ledger × σ
  | [], ledger, host => (⟨[]⟩, ledger, host)
  | first :: rest, ledger, host =>
    let (report, ledger, host) := target owner first desired tick ledger host
    let (reports, ledger, host) := targets owner desired tick rest ledger host
    (⟨report :: reports.targets⟩, ledger, host)

/-- Removes everything that an owner has, wherever it has it. -/
def cleanup (owner : CombinatorId) (tick : UInt64)
    (ledger : Ledger) (host : σ) :
    ReconcileReport × Ledger × σ :=
  targets owner .empty tick (ledger.ownedTargets owner).toList ledger host

end Reconciliation

end CircuitSections
