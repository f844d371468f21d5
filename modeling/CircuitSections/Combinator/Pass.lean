import CircuitSections.Combinator.Basic
import CircuitSections.Tracking.Reconciliation

/-!
# Evaluation passes

A pass reads the channels that some condition sees, steps every rule, and
reconciles if a rule fired, the wiring differs from the one last reconciled, or
the rules were set since.  Sections on targets outside the wiring are removed.
-/

namespace CircuitSections

/-- What happened in a pass. -/
structure PassReport where
  combinator : CombinatorId
  tick : UInt64
  edges : List RuleEdge
  /-- The desired sections, if the pass reconciled. -/
  desired : Option SpecSet
  /-- What became of the targets, if the pass reconciled. -/
  reconciliation : Option ReconcileReport

def PassReport.reconciled (report : PassReport) : Bool :=
  report.reconciliation.isSome

namespace Combinator

variable {σ : Type}

/-- One channel, read from the host only if some condition depends on it. -/
def readChannel [ChannelReader σ] (combinator : Combinator)
    (channel : Channel) (host : σ) :
    SignalStore × σ :=
  if combinator.reads channel then ChannelReader.readChannel
    combinator.id channel host
  else (.empty, host)

/-- The combinator with the channels that its rules see. -/
def readChannels [ChannelReader σ] (combinator : Combinator) (host : σ) :
    Combinator × σ :=
  let (red, host) := combinator.readChannel .red host
  let (green, host) := combinator.readChannel .green host
  ({ combinator with channels := ⟨red, green⟩ }, host)

/-- The edges of the rules on the channels last read, and the rules after
them. -/
def stepRules (combinator : Combinator) (tick : UInt64) :
    List RuleEdge × Combinator :=
  let steps := combinator.rules.map fun rule =>
    rule.step combinator.channels tick
  (steps.filterMap Prod.fst, { combinator with rules := steps.map Prod.snd })

/-- The wired targets, read from the host only if they are not known. -/
def readWiring [WiringReader σ] (combinator : Combinator) (host : σ) :
    List TargetId × Combinator × σ :=
  match combinator.wired with
  | some targets => (targets, combinator, host)
  | none =>
    let (targets, host) := WiringReader.wiredTargets combinator.id host
    (targets, { combinator with wired := some targets }, host)

/-- Brings the wired targets to what is desired, and then clears what the
combinator has on others. -/
def reconcile [SectionEditor σ] (id : CombinatorId) (wired : List TargetId)
    (desired : SpecSet) (tick : UInt64) (ledger : Ledger) (host : σ) :
    ReconcileReport × Ledger × σ :=
  let (onWired, ledger, host) :=
    Reconciliation.targets id desired tick wired ledger host
  let dropped := (ledger.ownedTargets id).difference (TargetSet.ofList wired)
  let (onDropped, ledger, host) :=
    Reconciliation.targets id .empty tick dropped.toList ledger host
  (onWired ++ onDropped, ledger, host)

variable [ChannelReader σ] [WiringReader σ] [SectionEditor σ]

def pass (combinator : Combinator) (tick : UInt64)
    (ledger : Ledger) (host : σ) :
    PassReport × Combinator × Ledger × σ :=
  let (combinator, host) := combinator.readChannels host
  let (edges, combinator) := combinator.stepRules tick
  let (wired, combinator, host) := combinator.readWiring host
  let current := TargetSet.ofList wired
  if edges.isEmpty ∧ current = combinator.reconciled ∧
      combinator.rulesChanged = false then
    (⟨combinator.id, tick, edges, none, none⟩, combinator, ledger, host)
  else
    let desired := combinator.desired
    let (report, ledger, host) :=
      reconcile combinator.id wired desired tick ledger host
    (⟨combinator.id, tick, edges, some desired, some report⟩,
      { combinator with reconciled := current, rulesChanged := false },
      ledger, host)

omit [ChannelReader σ] [WiringReader σ] in
/-- Removes every section of the combinator. -/
def tearDown (combinator : Combinator) (tick : UInt64)
    (ledger : Ledger) (host : σ) :
    ReconcileReport × Combinator × Ledger × σ :=
  let (report, ledger, host) :=
    Reconciliation.cleanup combinator.id tick ledger host
  (report, { combinator with reconciled := .empty }, ledger, host)

end Combinator

end CircuitSections
