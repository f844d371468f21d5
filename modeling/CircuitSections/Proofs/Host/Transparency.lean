import CircuitSections.Engine
import CircuitSections.Host.Recorded
import CircuitSections.Proofs.Host.Sections

/-!
# Transparent hosts

A host that wraps another one and answers every call as that one does is
transparent to the engine: passes, removals and whole rounds come to the same
reports, engines and inner hosts.  What a wrapper notes down on the side, such
as the calls or the sections that were added, is therefore true of the host
alone.
-/

namespace CircuitSections

/-- The result of a call, with the inner host in place of the outer one. -/
def within {τ σ α : Type} (inner : τ → σ) (result : α × τ) : α × σ :=
  (result.1, inner result.2)

/-- Every call on the outer host is answered as by the inner one, and leaves the
inner one in the same state. -/
structure Transparent {τ σ : Type} [ChannelReader τ] [WiringReader τ]
    [SectionEditor τ] [ChannelReader σ] [WiringReader σ] [SectionEditor σ]
    (inner : τ → σ) : Prop where
  readChannel : ∀ combinator channel outer,
    ChannelReader.readChannel combinator channel (inner outer) =
      within inner (ChannelReader.readChannel combinator channel outer)
  wiredTargets : ∀ combinator outer,
    WiringReader.wiredTargets combinator (inner outer) =
      within inner (WiringReader.wiredTargets combinator outer)
  targetExists : ∀ target outer,
    SectionEditor.targetExists target (inner outer) =
      within inner (SectionEditor.targetExists target outer)
  supportsSections : ∀ target outer,
    SectionEditor.supportsSections target (inner outer) =
      within inner (SectionEditor.supportsSections target outer)
  addSection : ∀ target spec outer,
    SectionEditor.addSection target spec (inner outer) =
      within inner (SectionEditor.addSection target spec outer)
  removeSection : ∀ target handle outer,
    SectionEditor.removeSection target handle (inner outer) =
      within inner (SectionEditor.removeSection target handle outer)

theorem Recorded.transparent {σ : Type} [ChannelReader σ] [WiringReader σ]
    [SectionEditor σ] :
    Transparent (Recorded.host : Recorded σ → σ) where
  readChannel _ _ _ := rfl
  wiredTargets _ _ := rfl
  targetExists _ _ := rfl
  supportsSections _ _ := rfl
  addSection _ _ _ := rfl
  removeSection _ _ _ := rfl

/-- A host and the sections that were added to it, the earliest first. -/
structure Journal (σ : Type) where
  host : σ
  added : List HostSection

namespace Journal

variable {σ : Type}

/-- A journal in which nothing is noted yet. -/
def opened (host : σ) : Journal σ := ⟨host, []⟩

/-- Lets the host answer a call that adds nothing. -/
def pass {α : Type} (answer : σ → α × σ) (journal : Journal σ) :
    α × Journal σ :=
  let (result, host) := answer journal.host
  (result, { journal with host })

/-- Notes a section that the host added under the handle it answers. -/
def note (target : TargetId) (spec : SectionSpec) (journal : Journal σ) :
    Except HostError SectionHandle × Journal σ →
      Except HostError SectionHandle × Journal σ
  | (.ok handle, next) =>
    (.ok handle, ⟨next.host, journal.added ++ [⟨target, handle, spec⟩]⟩)
  | (.error cause, next) => (.error cause, next)

instance [ChannelReader σ] : ChannelReader (Journal σ) where
  readChannel combinator channel :=
    pass (ChannelReader.readChannel combinator channel)

instance [WiringReader σ] : WiringReader (Journal σ) where
  wiredTargets combinator := pass (WiringReader.wiredTargets combinator)

instance [SectionEditor σ] : SectionEditor (Journal σ) where
  targetExists target := pass (SectionEditor.targetExists target)
  supportsSections target := pass (SectionEditor.supportsSections target)
  addSection target spec journal :=
    journal.note target spec
      (journal.pass (SectionEditor.addSection target spec))
  removeSection target handle :=
    pass (SectionEditor.removeSection target handle)

theorem transparent [ChannelReader σ] [WiringReader σ] [SectionEditor σ] :
    Transparent (Journal.host : Journal σ → σ) where
  readChannel _ _ _ := rfl
  wiredTargets _ _ := rfl
  targetExists _ _ := rfl
  supportsSections _ _ := rfl
  addSection target spec journal := by
    simp only [SectionEditor.addSection, pass, within]
    cases answer : (SectionEditor.addSection target spec journal.host).1 <;>
      simp [note, ← answer]
  removeSection _ _ _ := rfl

end Journal

namespace TargetWork

variable {τ σ : Type}

/-- The work on a target with another host. -/
def mapHost (inner : τ → σ) (work : TargetWork τ) : TargetWork σ :=
  ⟨work.ledger, inner work.host, work.report⟩

theorem foldl_mapHost {inner : τ → σ}
    {act : TargetWork τ → SectionSpec → TargetWork τ}
    {innerAct : TargetWork σ → SectionSpec → TargetWork σ}
    (commutes : ∀ work spec, innerAct (work.mapHost inner) spec =
      (act work spec).mapHost inner)
    (specs : List SectionSpec) (work : TargetWork τ) :
    specs.foldl innerAct (work.mapHost inner) =
      (specs.foldl act work).mapHost inner := by
  induction specs generalizing work with
  | nil => rfl
  | cons spec rest induction =>
      rw [List.foldl_cons, List.foldl_cons, commutes, induction]

end TargetWork

namespace Transparent

variable {τ σ : Type} [ChannelReader τ] [WiringReader τ] [SectionEditor τ]
  [ChannelReader σ] [WiringReader σ] [SectionEditor σ] {inner : τ → σ}

theorem remove (transparent : Transparent inner) (work : TargetWork τ)
    (spec : SectionSpec) :
    (work.mapHost inner).remove spec = (work.remove spec).mapHost inner := by
  simp only [TargetWork.remove, TargetWork.mapHost]
  cases work.ledger.get? work.report.target spec with
  | none => rfl
  | some tracked =>
      simp only [transparent.removeSection, within]
      split <;> rfl

theorem inject (transparent : Transparent inner) (owner : CombinatorId)
    (tick : UInt64) (work : TargetWork τ) (spec : SectionSpec) :
    TargetWork.inject owner tick (work.mapHost inner) spec =
      (TargetWork.inject owner tick work spec).mapHost inner := by
  simp only [TargetWork.inject, TargetWork.mapHost,
    transparent.addSection, within]
  split <;> rfl

theorem target (transparent : Transparent inner) (owner : CombinatorId)
    (target : TargetId) (desired : SpecSet) (tick : UInt64)
    (ledger : Ledger) (outer : τ) :
    Reconciliation.target owner target desired tick ledger (inner outer) =
      Prod.map (·) (within inner)
        (Reconciliation.target owner target desired tick ledger outer) := by
  simp only [Reconciliation.target, transparent.targetExists, within]
  split
  · simp only [transparent.supportsSections, within]
    split
    · have start (host : τ) (report : TargetReport) :
          (⟨ledger, inner host, report⟩ : TargetWork σ) =
            TargetWork.mapHost inner ⟨ledger, host, report⟩ := rfl
      rw [start, TargetWork.foldl_mapHost transparent.remove,
        TargetWork.foldl_mapHost (transparent.inject owner tick)]
      rfl
    · rfl
  · rfl

theorem targets (transparent : Transparent inner) (owner : CombinatorId)
    (desired : SpecSet) (tick : UInt64) (list : List TargetId)
    (ledger : Ledger) (outer : τ) :
    Reconciliation.targets owner desired tick list ledger (inner outer) =
      Prod.map (·) (within inner)
        (Reconciliation.targets owner desired tick list ledger outer) := by
  induction list generalizing ledger outer with
  | nil => rfl
  | cons first rest induction =>
      simp only [Reconciliation.targets, transparent.target, Prod.map,
        within, induction]

theorem tearDown (transparent : Transparent inner) (combinator : Combinator)
    (tick : UInt64) (ledger : Ledger) (outer : τ) :
    combinator.tearDown tick ledger (inner outer) =
      Prod.map (·) (Prod.map (·) (within inner))
        (combinator.tearDown tick ledger outer) := by
  simp only [Combinator.tearDown, Reconciliation.cleanup, transparent.targets,
    Prod.map, within]

theorem reconcile (transparent : Transparent inner) (id : CombinatorId)
    (wired : List TargetId) (desired : SpecSet) (tick : UInt64)
    (ledger : Ledger) (outer : τ) :
    Combinator.reconcile id wired desired tick ledger (inner outer) =
      Prod.map (·) (within inner)
        (Combinator.reconcile id wired desired tick ledger outer) := by
  simp only [Combinator.reconcile, transparent.targets, Prod.map, within]

theorem readChannels (transparent : Transparent inner) (combinator : Combinator)
    (outer : τ) :
    combinator.readChannels (inner outer) =
      within inner (combinator.readChannels outer) := by
  have one (channel : Channel) (host : τ) :
      combinator.readChannel channel (inner host) =
        within inner (combinator.readChannel channel host) := by
    simp only [Combinator.readChannel]
    split
    · exact transparent.readChannel combinator.id channel host
    · rfl
  simp only [Combinator.readChannels, one, within]

theorem readWiring (transparent : Transparent inner) (combinator : Combinator)
    (outer : τ) :
    combinator.readWiring (inner outer) =
      Prod.map (·) (within inner) (combinator.readWiring outer) := by
  simp only [Combinator.readWiring]
  cases combinator.wired with
  | none => simp only [transparent.wiredTargets, within, Prod.map]
  | some targets => rfl

theorem pass (transparent : Transparent inner) (combinator : Combinator)
    (tick : UInt64) (ledger : Ledger) (outer : τ) :
    combinator.pass tick ledger (inner outer) =
      Prod.map (·) (Prod.map (·) (within inner))
        (combinator.pass tick ledger outer) := by
  simp only [Combinator.pass, transparent.readChannels, transparent.readWiring,
    transparent.reconcile, within, Prod.map]
  split <;> rfl

theorem passOf (transparent : Transparent inner) (engine : Engine)
    (combinator : Combinator) (tick : UInt64) (outer : τ) :
    engine.passOf combinator tick (inner outer) =
      Prod.map (·) (within inner) (engine.passOf combinator tick outer) := by
  simp only [Engine.passOf, transparent.pass, Prod.map, within]

theorem evaluate (transparent : Transparent inner) (engine : Engine)
    (id : CombinatorId) (tick : UInt64) (outer : τ) :
    engine.evaluate id tick (inner outer) =
      Prod.map (·) (within inner) (engine.evaluate id tick outer) := by
  simp only [Engine.evaluate]
  cases engine.combinator? id with
  | none => rfl
  | some combinator => simp only [transparent.passOf, Prod.map, within]

theorem evaluateEach (transparent : Transparent inner) (tick : UInt64)
    (combinators : List Combinator) (engine : Engine) (outer : τ) :
    engine.evaluateEach tick combinators (inner outer) =
      Prod.map (·) (within inner)
        (engine.evaluateEach tick combinators outer) := by
  induction combinators generalizing engine outer with
  | nil => rfl
  | cons combinator rest induction =>
      simp only [Engine.evaluateEach, transparent.passOf, Prod.map,
        within, induction]

end Transparent

end CircuitSections
