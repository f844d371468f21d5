import CircuitSections.Proofs.Combinator.Pass
import CircuitSections.Proofs.Host.Transparency
import CircuitSections.Proofs.Tracking.Reconciliation
import Mathlib.Logic.Relation

/-!
# What a combinator does to the ledger and the host

A scene holds the ledger, the host, and what happened to them so far.  All that
reconciliation does to a scene is a sequence of four kinds of edits, each made
for its owner: `pass_edits` and `tearDown_edits` say so of passes and of the
removal of a combinator.  What every edit keeps is thereby kept by both.
-/

namespace CircuitSections

/-- Who put a section on the host. -/
inductive Maker
  /-- A player. -/
  | hand
  /-- A pass of a combinator. -/
  | pass (combinator : CombinatorId)
  deriving DecidableEq

/-- Something that happened in a run. -/
inductive Event
  /-- A section was put on the host. -/
  | created (maker : Maker) (placed : HostSection)
  /-- A target was spawned or destroyed, and what it carried is gone. -/
  | cleared (target : TargetId)
  /-- A combinator was given its rules or others. -/
  | ruled (combinator : CombinatorId)
  /-- A combinator had a pass. -/
  | passed (combinator : CombinatorId)
  deriving DecidableEq

/-- One thing happened, and another did not happen since. -/
def Since (event other : Event) (log : List Event) : Prop :=
  ∃ earlier later, log = earlier ++ event :: later ∧ other ∉ later

namespace Since

variable {event other : Event} {log notes : List Event}

theorem last : Since event other (log ++ [event]) :=
  ⟨log, [], rfl, List.not_mem_nil⟩

theorem append (since : Since event other log) (absent : other ∉ notes) :
    Since event other (log ++ notes) := by
  obtain ⟨earlier, later, split, apart⟩ := since
  refine ⟨earlier, later ++ notes, by simp [split], ?_⟩
  rw [List.mem_append, not_or]
  exact ⟨apart, absent⟩

theorem of_append (since : Since event other (log ++ notes))
    (old : event ∉ notes) :
    Since event other log ∧ other ∉ notes := by
  obtain ⟨earlier, later, split, apart⟩ := since
  rcases List.append_eq_append_iff.mp split with ⟨middle, _, right⟩ |
    ⟨middle, left, right⟩
  · exact absurd (by simp [right]) old
  · cases middle with
    | nil =>
        rw [List.nil_append] at right
        exact absurd (right ▸ List.mem_cons_self) old
    | cons first rest =>
        rw [List.cons_append] at right
        obtain ⟨rfl, same⟩ := List.cons.inj right
        rw [same, List.mem_append, not_or] at apart
        exact ⟨⟨earlier, rest, left, apart.1⟩, apart.2⟩

theorem cons_iff {first : Event} :
    Since event other (first :: log) ↔
      Since event other log ∨ first = event ∧ other ∉ log := by
  constructor
  · intro since
    obtain ⟨earlier, later, split, apart⟩ := since
    cases earlier with
    | nil =>
        obtain ⟨same, rfl⟩ := List.cons.inj split
        exact .inr ⟨same, apart⟩
    | cons _ rest =>
        exact .inl ⟨rest, later, List.tail_eq_of_cons_eq split, apart⟩
  · intro since
    rcases since with ⟨earlier, later, rfl, apart⟩ | ⟨rfl, apart⟩
    · exact ⟨first :: earlier, later, rfl, apart⟩
    · exact ⟨[], log, rfl, apart⟩

end Since

instance decidableSince (event other : Event) : (log : List Event) →
    Decidable (Since event other log)
  | [] =>
    isFalse fun since => by
      obtain ⟨earlier, later, split, _⟩ := since; simp at split
  | _ :: rest =>
    have := decidableSince event other rest
    decidable_of_iff _ Since.cons_iff.symm

/-- The ledger and the host with their story. -/
structure Scene where
  ledger : Ledger
  host : MemoryHost
  /-- What happened, the earliest first. -/
  log : List Event
  /-- The entries that passes reported as displaced. -/
  orphaned : List TrackedSection

/-- The section that the entry tracks. -/
def TrackedSection.placed (entry : TrackedSection) : HostSection :=
  ⟨entry.target, entry.handle, entry.spec⟩

/-- One edit that is made for an owner, which may add what it wants on a
target. -/
inductive Edit (owner : CombinatorId) (tick : UInt64)
    (wanted : TargetId → SectionSpec → Prop) :
    Scene → Scene → Prop
  /-- The target is gone, and so is what the owner had there. -/
  | drop {scene : Scene} {target : TargetId} :
      scene.host.targets target = none →
      Edit owner tick wanted scene
        { scene with ledger := (scene.ledger.forgetOwnedOn owner target).2 }
  /-- A section of the owner is removed. -/
  | remove {scene : Scene} {target : TargetId} {spec : SectionSpec}
      {entry : TrackedSection}
      {host : MemoryHost} :
      scene.ledger.get? target spec = some entry → entry.owner = owner →
      scene.host.removeSection target entry.handle = (.ok (), host) →
      Edit owner tick wanted scene
        { scene with ledger := (scene.ledger.forget target spec).2, host }
  /-- A section of the owner is no longer there. -/
  | lose {scene : Scene} {target : TargetId} {spec : SectionSpec}
      {entry : TrackedSection} :
      scene.ledger.get? target spec = some entry → entry.owner = owner →
      (∀ placed, scene.host.Carries placed →
        ¬ (placed.target = target ∧ placed.handle = entry.handle)) →
      Edit owner tick wanted scene
        { scene with ledger := (scene.ledger.forget target spec).2 }
  /-- A section that the owner wants and does not have is added. -/
  | inject {scene : Scene} {target : TargetId} {spec : SectionSpec}
      {handle : SectionHandle}
      {host : MemoryHost} :
      wanted target spec → ¬ scene.ledger.Owns owner target spec.key →
      scene.host.addSection target spec = (.ok handle, host) →
      Edit owner tick wanted scene
        { ledger := (scene.ledger.record ⟨target, spec, owner, handle, tick⟩).2
          host
          log := scene.log ++ [.created (.pass owner) ⟨target, handle, spec⟩]
          orphaned := scene.orphaned ++ (scene.ledger.get? target spec).toList }

/-- Edits one after the other. -/
abbrev Edits (owner : CombinatorId) (tick : UInt64)
    (wanted : TargetId → SectionSpec → Prop) :
    Scene → Scene → Prop :=
  Relation.ReflTransGen (Edit owner tick wanted)

theorem Journal.answers (journal : Journal MemoryHost) :
    Answers (· = journal) journal.host where
  readChannel _ _ _ inside := ⟨journal, rfl, by subst inside; rfl⟩
  wiredTargets _ _ inside := ⟨journal, rfl, by subst inside; rfl⟩
  targetExists _ _ inside := ⟨journal, rfl, by subst inside; rfl⟩
  supportsSections _ _ inside := ⟨journal, rfl, by subst inside; rfl⟩

/-- The scene that a journal tells of what is done for an owner. -/
def Journal.scene (journal : Journal MemoryHost) (owner : CombinatorId)
    (ledger : Ledger) (log : List Event) (orphaned : List TrackedSection) :
    Scene :=
  ⟨ledger, journal.host, log ++ journal.added.map (.created (.pass owner)),
    orphaned⟩

namespace TargetWork

variable {owner : CombinatorId} {tick : UInt64}
  {wanted : TargetId → SectionSpec → Prop}
  {log : List Event} {orphaned : List TrackedSection}

/-- The scene in which an owner is at work on a target. -/
def scene (work : TargetWork (Journal MemoryHost)) (owner : CombinatorId)
    (log : List Event) (orphaned : List TrackedSection) : Scene :=
  work.host.scene owner work.ledger log (orphaned ++ work.report.orphaned)

/-- Removing a spec that nobody else has is an edit, or changes nothing. -/
theorem remove_edits (work : TargetWork (Journal MemoryHost))
    (spec : SectionSpec)
    (owned : ∀ entry, work.ledger.get? work.report.target spec = some entry →
      entry.owner = owner) :
    Edits owner tick wanted (work.scene owner log orphaned)
      ((work.remove spec).scene owner log orphaned) := by
  unfold TargetWork.remove
  split
  · exact .refl
  next entry found =>
    cases answered :
      work.host.host.removeSection work.report.target entry.handle with
    | mk answer host =>
        have call : SectionEditor.removeSection work.report.target
            entry.handle work.host =
              (answer, ⟨host, work.host.added⟩) := by
          simp [SectionEditor.removeSection, Journal.pass, answered]
        simp only [call]
        cases answer with
        | ok _ => exact .single (.remove found (owned entry found) answered)
        | error cause =>
            have same := MemoryHost.removeSection_error answered
            subst same
            cases cause with
            | sectionNotFound named handle =>
                refine .single (.lose found (owned entry found) ?_)
                intro placed carried
                exact MemoryHost.not_carries_of_sectionNotFound answered carried
            | targetNotFound named =>
                have missing := MemoryHost.missing_of_targetNotFound answered
                refine .single (.lose found (owned entry found) ?_)
                intro placed carried hit
                obtain ⟨onTarget, _⟩ := hit
                exact MemoryHost.not_carries_of_missing
                  (onTarget ▸ missing) carried
            | unsupported named => exact .refl
            | rejected named reason => exact .refl
            | poisoned context => exact .refl

theorem removals_edits (specs : List SectionSpec)
    (work : TargetWork (Journal MemoryHost))
    (owned : ∀ spec ∈ specs, ∀ entry,
      work.ledger.get? work.report.target spec = some entry →
        entry.owner = owner) :
    Edits owner tick wanted (work.scene owner log orphaned)
      ((specs.foldl remove work).scene owner log orphaned) := by
  induction specs generalizing work with
  | nil => exact .refl
  | cons spec rest induction =>
      refine (remove_edits work spec (owned spec List.mem_cons_self)).trans
        (induction _ ?_)
      intro later member entry found
      rw [remove_target] at found
      obtain ⟨tracked, place⟩ := Ledger.get?_eq_some_iff.mp found
      exact owned later (List.mem_cons_of_mem spec member) entry
        (Ledger.get?_eq_some_iff.mpr ⟨mem_of_mem_remove tracked, place⟩)

/-- Adding a wanted spec that the owner does not have is an edit, or changes
nothing. -/
theorem inject_edits (work : TargetWork (Journal MemoryHost))
    (spec : SectionSpec) (want : wanted work.report.target spec)
    (absent : ¬ work.ledger.Owns owner work.report.target spec.key) :
    Edits owner tick wanted (work.scene owner log orphaned)
      ((inject owner tick work spec).scene owner log orphaned) := by
  unfold inject
  cases answered : work.host.host.addSection work.report.target spec with
  | mk answer host =>
      cases answer with
      | ok handle =>
          have call :
              SectionEditor.addSection work.report.target spec work.host =
                (.ok handle, ⟨host,
                  work.host.added ++
                    [⟨work.report.target, handle, spec⟩]⟩) := by
            simp [SectionEditor.addSection, Journal.pass,
              Journal.note, answered]
          simp only [call]
          have edit :
              Edit owner tick wanted (work.scene owner log orphaned) _ :=
            .inject want absent answered
          simpa [scene, Journal.scene, confirmInjection, Ledger.record] using
            Relation.ReflTransGen.single edit
      | error cause =>
          have same := MemoryHost.addSection_error answered
          subst same
          have call :
              SectionEditor.addSection work.report.target spec work.host =
                (.error cause, work.host) := by
            simp [SectionEditor.addSection, Journal.pass,
              Journal.note, answered]
          simp only [call]
          exact .refl

theorem injections_edits (specs : List SectionSpec)
    (work : TargetWork (Journal MemoryHost))
    (want : ∀ spec ∈ specs, wanted work.report.target spec)
    (distinct : specs.Pairwise fun a b => a.key ≠ b.key)
    (absent : ∀ spec ∈ specs,
      ¬ work.ledger.Owns owner work.report.target spec.key) :
    Edits owner tick wanted (work.scene owner log orphaned)
      ((specs.foldl (inject owner tick) work).scene owner log orphaned) := by
  induction specs generalizing work with
  | nil => exact .refl
  | cons spec rest induction =>
      obtain ⟨apart, restDistinct⟩ := List.pairwise_cons.mp distinct
      refine (inject_edits work spec (want spec List.mem_cons_self)
        (absent spec List.mem_cons_self)).trans (induction _ ?_ restDistinct ?_)
      · intro later member
        rw [inject_target]
        exact want later (List.mem_cons_of_mem spec member)
      · intro later member owns
        rw [inject_target] at owns
        exact absent later (List.mem_cons_of_mem spec member)
          (owns_of_owns_inject (apart later member) owns)

end TargetWork

namespace Reconciliation

variable (owner : CombinatorId) (tick : UInt64)
  {wanted : TargetId → SectionSpec → Prop}
  (log : List Event) (orphaned : List TrackedSection)

theorem target_edits (target : TargetId) (desired : SpecSet)
    (want : ∀ spec ∈ desired.toList, wanted target spec) (ledger : Ledger)
    (journal : Journal MemoryHost) :
    let (report, ledger', journal') :=
      Reconciliation.target owner target desired tick ledger journal
    Edits owner tick wanted (journal.scene owner ledger log orphaned)
      (journal'.scene owner ledger' log (orphaned ++ report.orphaned)) := by
  have alive : SectionEditor.targetExists target journal =
      (journal.host.targetExists target, journal) := rfl
  have supported : SectionEditor.supportsSections target journal =
      (journal.host.supportsSections target, journal) := rfl
  simp only [Reconciliation.target, alive, supported]
  split
  · split
    · let work : TargetWork (Journal MemoryHost) :=
        ⟨ledger, journal, .without target .applied⟩
      let owned := ledger.ownedSpecs owner target
      let removed :=
        (owned.difference desired).toList.foldl TargetWork.remove work
      have removals : Edits owner tick wanted (work.scene owner log orphaned)
          (removed.scene owner log orphaned) := by
        refine TargetWork.removals_edits _ work fun spec member entry found =>
          ?_
        have owns : ledger.Owns owner target spec.key :=
          Ledger.contains_ownedSpecs.mp
            (Ascending.contains_of_mem (Ascending.mem_difference.mp member).1)
        exact (Ledger.owns_iff_of_get? found).mp owns
      have onTarget : removed.report.target = target :=
        TargetWork.removals_target _ work
      have injections :
          Edits owner tick wanted (removed.scene owner log orphaned)
          (((desired.difference owned).toList.foldl
            (TargetWork.inject owner tick) removed).scene
            owner log orphaned) := by
        refine TargetWork.injections_edits _ removed ?_ ?_ ?_
        · intro spec member
          rw [onTarget]
          exact want spec (Ascending.mem_difference.mp member).1
        · refine (desired.difference owned).ascending.imp fun {a b}
            below same => ?_
          simp [same] at below
        · intro spec member owns
          obtain ⟨entry, tracked, own, place⟩ := owns
          have kept : owned.contains spec.key = true :=
            Ledger.contains_ownedSpecs.mpr
              ⟨entry, TargetWork.mem_of_mem_removals tracked, own,
                place.trans (by rw [onTarget])⟩
          simp [(Ascending.mem_difference.mp member).2] at kept
      have start : work.scene owner log orphaned =
          journal.scene owner ledger log orphaned := by
        simp [work, TargetWork.scene, TargetReport.without]
      exact start ▸ removals.trans injections
    · simpa [TargetReport.without] using Relation.ReflTransGen.refl
  next gone =>
    have missing : journal.host.targets target = none := by
      simpa [MemoryHost.targetExists] using gone
    have edit :
        Edit owner tick wanted (journal.scene owner ledger log orphaned) _ :=
      .drop missing
    simpa [TargetReport.without, Journal.scene]
      using Relation.ReflTransGen.single edit

theorem targets_edits (list : List TargetId) (desired : SpecSet)
    (want : ∀ target ∈ list, ∀ spec ∈ desired.toList, wanted target spec)
    (ledger : Ledger) (journal : Journal MemoryHost) :
    let (report, ledger', journal') :=
      Reconciliation.targets owner desired tick list ledger journal
    Edits owner tick wanted (journal.scene owner ledger log orphaned)
      (journal'.scene owner ledger' log (orphaned ++ report.orphaned)) := by
  induction list generalizing ledger journal orphaned with
  | nil =>
      simpa [Reconciliation.targets, ReconcileReport.orphaned]
        using Relation.ReflTransGen.refl
  | cons first rest induction =>
      have head := target_edits owner tick log orphaned first desired
        (want first List.mem_cons_self) ledger journal
      have restWant : ∀ target ∈ rest, ∀ spec ∈ desired.toList,
          wanted target spec :=
        fun target member => want target (List.mem_cons_of_mem first member)
      have tail := induction
        (orphaned ++
          (Reconciliation.target owner first desired tick ledger
            journal).1.orphaned)
        restWant
          (Reconciliation.target owner first desired tick ledger journal).2.1
        (Reconciliation.target owner first desired tick ledger journal).2.2
      simpa [Reconciliation.targets, ReconcileReport.orphaned]
        using head.trans tail

end Reconciliation

/-- The entries that the report lists as displaced, none unless the pass
reconciled. -/
def PassReport.orphaned (report : PassReport) : List TrackedSection :=
  match report.reconciliation with
  | some reconciliation => reconciliation.orphaned
  | none => []

namespace Combinator

variable (tick : UInt64) (log : List Event) (orphaned : List TrackedSection)

/-- What a combinator wants on a target: what it desires, if the target is wired
to it. -/
def Wants (combinator : Combinator) (target : TargetId)
    (spec : SectionSpec) : Prop :=
  target ∈ combinator.wired.getD [] ∧ spec ∈ combinator.desired.toList

theorem reconcile_edits {owner : CombinatorId}
    {wanted : TargetId → SectionSpec → Prop} (wired : List TargetId)
    (desired : SpecSet)
    (want : ∀ target ∈ wired, ∀ spec ∈ desired.toList, wanted target spec)
    (ledger : Ledger) (journal : Journal MemoryHost) :
    let (report, ledger', journal') :=
      reconcile owner wired desired tick ledger journal
    Edits owner tick wanted (journal.scene owner ledger log orphaned)
      (journal'.scene owner ledger' log (orphaned ++ report.orphaned)) := by
  have onWired := Reconciliation.targets_edits owner tick log orphaned wired
    desired want ledger
    journal
  let done := Reconciliation.targets owner desired tick wired ledger journal
  let dropped :=
    ((done.2.1.ownedTargets owner).difference (TargetSet.ofList wired)).toList
  have nothing : ∀ target ∈ dropped, ∀ spec ∈ (.empty : SpecSet).toList,
      wanted target spec :=
    fun _ _ _ member => absurd member List.not_mem_nil
  have onDropped :=
    Reconciliation.targets_edits owner tick log (orphaned ++ done.1.orphaned)
      dropped .empty nothing done.2.1 done.2.2
  simp only [reconcile, ReconcileReport.orphaned_append, ← List.append_assoc]
  exact onWired.trans onDropped

/-- All that a pass does to the ledger and the host are edits for its
combinator, which add only what the combinator wants after the pass. -/
theorem pass_edits (combinator : Combinator) (ledger : Ledger)
    (journal : Journal MemoryHost) :
    let (report, after, ledger', journal') :=
      combinator.pass tick ledger journal
    Edits combinator.id tick after.Wants
      (journal.scene combinator.id ledger log orphaned)
      (journal'.scene combinator.id ledger' log
        (orphaned ++ report.orphaned)) := by
  by_cases quiet : combinator.Quiet tick (journal.host.channels combinator.id)
      (journal.host.wiring combinator.id)
  · rw [pass_eq_of_quiet journal.answers quiet]
    simpa [PassReport.orphaned] using Relation.ReflTransGen.refl
  · rw [pass_eq_of_not_quiet journal.answers quiet]
    exact reconcile_edits tick log orphaned _ _
      (fun _ wired _ member => ⟨wired, member⟩) ledger
      journal

theorem tearDown_edits (combinator : Combinator) (ledger : Ledger)
    (journal : Journal MemoryHost) :
    let (report, _, ledger', journal') :=
      combinator.tearDown tick ledger journal
    Edits combinator.id tick (fun _ _ => False)
      (journal.scene combinator.id ledger log orphaned)
      (journal'.scene combinator.id ledger' log
        (orphaned ++ report.orphaned)) :=
  Reconciliation.targets_edits combinator.id tick log orphaned _ .empty
    (fun _ _ _ member => absurd member List.not_mem_nil) ledger journal

end Combinator

end CircuitSections
