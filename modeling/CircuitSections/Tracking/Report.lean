import CircuitSections.Host.Interface
import CircuitSections.Tracking.Ledger

/-!
# Reports on reconciliation

What became of each target: which edits went through, which failed, and which
entries of the ledger were displaced.
-/

namespace CircuitSections

/-- An edit that did not go through. -/
structure SectionFailure where
  edit : SectionEdit
  spec : SectionSpec
  cause : HostError
  deriving DecidableEq

/-- How a target was handled. -/
inductive TargetOutcome
  /-- The edits were attempted. -/
  | applied
  /-- The target is gone and what was tracked there was dropped. -/
  | vanished
  /-- The target cannot hold sections and nothing was attempted. -/
  | unsupported
  deriving DecidableEq

/-- What became of one target. -/
structure TargetReport where
  target : TargetId
  outcome : TargetOutcome
  removed : List SectionSpec
  injected : List SectionSpec
  failures : List SectionFailure
  /-- Displaced entries, whose sections stay on the target untracked. -/
  orphaned : List TrackedSection
  deriving DecidableEq

/-- A report without any edit. -/
def TargetReport.without (target : TargetId) (outcome : TargetOutcome) :
    TargetReport :=
  ⟨target, outcome, [], [], [], []⟩

/-- What became of several targets, in the order in which they were handled. -/
structure ReconcileReport where
  targets : List TargetReport
  deriving DecidableEq

namespace ReconcileReport

def injectedCount (report : ReconcileReport) : Nat :=
  report.targets.foldl (fun count target => count + target.injected.length) 0

def removedCount (report : ReconcileReport) : Nat :=
  report.targets.foldl (fun count target => count + target.removed.length) 0

/-- Every failure with its target. -/
def failures (report : ReconcileReport) : List (TargetId × SectionFailure) :=
  report.targets.flatMap fun target => target.failures.map fun failure =>
    (target.target, failure)

def isClean (report : ReconcileReport) : Bool :=
  report.targets.all fun target => target.failures.isEmpty

def append (first second : ReconcileReport) : ReconcileReport :=
  ⟨first.targets ++ second.targets⟩

instance : Append ReconcileReport := ⟨append⟩

end ReconcileReport

end CircuitSections
