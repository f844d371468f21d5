import CircuitSections.Proofs.Host.Access
import CircuitSections.Proofs.Tracking.Places
import CircuitSections.Proofs.Tracking.Reconciliation
import Mathlib.Data.List.Basic

/-!
# The outcome of reconciliation

On a host in memory, what becomes of a target is known from how it takes edits
and from what is tracked there before: the report, what is left at every place
of the ledger up to the handles of new sections, and the host.  Targets that are
reconciled one after the other do not see each other (`at?_targets`,
`targets_reports`).
-/

namespace CircuitSections

/-! ### Several edits of one target -/

namespace TargetWork

variable (work : TargetWork MemoryHost) {owner : CombinatorId} {tick : UInt64}
  {reason : String}
  {specs : List SectionSpec}

theorem removals_refusing
    (refusing : work.host.access work.report.target = .refusing reason)
    (tracked : ∀ spec ∈ specs, work.ledger.get? work.report.target spec ≠
      none) :
    specs.foldl remove work =
      { work with
        report :=
          { work.report with
            failures := work.report.failures ++
              specs.map
                (⟨.remove, ·, .rejected work.report.target reason⟩) } } := by
  induction specs generalizing work with
  | nil => simp
  | cons spec rest ih =>
      obtain ⟨first, later⟩ := List.forall_mem_cons.mp tracked
      obtain ⟨entry, found⟩ := Option.ne_none_iff_exists'.mp first
      have answered : work.host.removeSection work.report.target entry.handle =
          (.error (.rejected work.report.target reason), work.host) := by
        rw [MemoryHost.removeSection, MemoryHost.editable_of_refusing refusing]
      have step : work.remove spec =
          work.noteFailure .remove spec
            (.rejected work.report.target reason) := by
        simp only [remove, found, SectionEditor.removeSection, answered]
      rw [List.foldl_cons, step]
      refine (ih (work.noteFailure .remove spec _) refusing later).trans ?_
      simp [noteFailure]

theorem injections_refusing
    (refusing : work.host.access work.report.target = .refusing reason) :
    specs.foldl (inject owner tick) work =
      { work with
        report :=
          { work.report with
            failures := work.report.failures ++
              specs.map
                (⟨.add, ·, .rejected work.report.target reason⟩) } } := by
  induction specs generalizing work with
  | nil => simp
  | cons spec rest ih =>
      have answered : work.host.addSection work.report.target spec =
          (.error (.rejected work.report.target reason), work.host) := by
        rw [MemoryHost.addSection, MemoryHost.editable_of_refusing refusing]
      have step : inject owner tick work spec =
          work.noteFailure .add spec (.rejected work.report.target reason) := by
        simp only [inject, SectionEditor.addSection, answered]
      rw [List.foldl_cons, step]
      refine (ih (work.noteFailure .add spec _) refusing).trans ?_
      simp [noteFailure]

theorem removals_accepting
    (accepting : work.host.access work.report.target = .accepting)
    (tracked : ∀ spec ∈ specs, work.ledger.get? work.report.target spec ≠ none)
    (distinct : specs.Pairwise fun a b => a.key ≠ b.key) :
    specs.foldl remove work =
      { ledger := work.ledger.forgetAll work.report.target specs
        host := work.host.removeAll work.report.target
          ((work.ledger.entriesFor work.report.target specs).map
            TrackedSection.handle)
        report := { work.report with
          removed := work.report.removed ++ specs } } := by
  induction specs generalizing work with
  | nil => simp [Ledger.forgetAll, Ledger.entriesFor, MemoryHost.removeAll]
  | cons spec rest ih =>
      obtain ⟨first, later⟩ := List.forall_mem_cons.mp tracked
      obtain ⟨apart, restDistinct⟩ := List.pairwise_cons.mp distinct
      obtain ⟨entry, found⟩ := Option.ne_none_iff_exists'.mp first
      let host := (work.host.removeSection work.report.target entry.handle).2
      have step : work.remove spec = { work with
          host }.confirmRemoval spec := by
        have accepts := MemoryHost.access_eq_accepting_iff.mp accepting
        rcases accepts.removeSection entry.handle with
          ⟨after, answered⟩ | answered
        · simp only [remove, found, SectionEditor.removeSection, answered, host]
        · simp only [remove, found, SectionEditor.removeSection, answered, host]
      have kept (other : SectionSpec) (member : other ∈ rest) :
          (work.ledger.forget work.report.target spec).2.get?
            work.report.target other =
              work.ledger.get? work.report.target other := by
        rw [Ledger.get?_forget, if_neg fun same => apart other member same.2]
      have same := Ledger.entriesFor_congr kept
      have still : host.access work.report.target = .accepting :=
        (MemoryHost.access_removeSection work.host _ _ _).trans accepting
      rw [List.foldl_cons, step]
      refine (ih _ still ?_ restDistinct).trans ?_
      · intro other member
        exact (kept other member).symm ▸ later other member
      · simp only [confirmRemoval, same, Ledger.entriesFor_cons, found,
          List.append_assoc, List.singleton_append]
        rfl

theorem injections_accepting
    (accepting : work.host.access work.report.target = .accepting)
    (distinct : specs.Pairwise fun a b => a.key ≠ b.key) :
    specs.foldl (inject owner tick) work =
      { ledger :=
          Ledger.recordAll owner tick work.report.target specs
            work.host.nextHandle work.ledger
        host := work.host.addAll work.report.target specs
        report :=
          { work.report with
            injected := work.report.injected ++ specs
            orphaned := work.report.orphaned ++
              work.ledger.entriesFor work.report.target specs } } := by
  induction specs generalizing work with
  | nil => simp [Ledger.recordAll, Ledger.entriesFor, MemoryHost.addAll]
  | cons spec rest ih =>
      obtain ⟨apart, restDistinct⟩ := List.pairwise_cons.mp distinct
      obtain ⟨numbered, next⟩ :=
        MemoryHost.addSection_of_accepting accepting spec
      let host := (work.host.addSection work.report.target spec).2
      let new : TrackedSection :=
        ⟨work.report.target, spec, owner, ⟨work.host.nextHandle⟩, tick⟩
      have step : inject owner tick work spec =
          { work with host }.confirmInjection owner tick spec
            ⟨work.host.nextHandle⟩ := by
        simp only [inject, SectionEditor.addSection, numbered, host]
      have kept (other : SectionSpec) (member : other ∈ rest) :
          (work.ledger.record new).2.get? work.report.target other =
            work.ledger.get? work.report.target other := by
        rw [Ledger.get?_record, if_neg]
        exact fun same => apart other member (congrArg SlotKey.spec same)
      have same := Ledger.entriesFor_congr kept
      have still : host.access work.report.target = .accepting :=
        (MemoryHost.access_addSection work.host _ _ _).trans accepting
      rw [List.foldl_cons, step]
      refine (ih _ still restDistinct).trans ?_
      simp only [confirmInjection, Ledger.recordAll, Ledger.entriesFor_cons,
        ← same, host, next, List.append_assoc, List.singleton_append]
      rfl

end TargetWork

namespace Reconciliation

/-! ### One target -/

/-- The report on a target that takes edits as given. -/
def reportOn (access : TargetAccess) (ledger : Ledger) (owner : CombinatorId)
    (desired : SpecSet) (target : TargetId) : TargetReport :=
  let plan := EditPlan.between (ledger.ownedSpecs owner target) desired
  match access with
  | .missing => .without target .vanished
  | .plain => .without target .unsupported
  | .refusing reason =>
    { TargetReport.without target .applied with
      failures :=
        plan.remove.map (⟨.remove, ·, .rejected target reason⟩) ++
          plan.inject.map (⟨.add, ·, .rejected target reason⟩) }
  | .accepting =>
    { TargetReport.without target .applied with
      removed := plan.remove
      injected := plan.inject
      orphaned := ledger.entriesFor target plan.inject }

/-- The ledger after a target was reconciled, with handles from a number on. -/
def ledgerOn (access : TargetAccess) (ledger : Ledger) (owner : CombinatorId)
    (desired : SpecSet) (tick : UInt64) (target : TargetId)
    (next : UInt64) : Ledger :=
  let plan := EditPlan.between (ledger.ownedSpecs owner target) desired
  match access with
  | .missing => (ledger.forgetOwnedOn owner target).2
  | .plain | .refusing _ => ledger
  | .accepting =>
    Ledger.recordAll owner tick target plan.inject
      next (ledger.forgetAll target plan.remove)

/-- The host after a target was reconciled. -/
def hostOn (host : MemoryHost) (ledger : Ledger) (owner : CombinatorId)
    (desired : SpecSet) (target : TargetId) : MemoryHost :=
  let plan := EditPlan.between (ledger.ownedSpecs owner target) desired
  match host.access target with
  | .accepting =>
    let handles :=
      (ledger.entriesFor target plan.remove).map TrackedSection.handle
    (host.removeAll target handles).addAll target plan.inject
  | _ => host

section Planned

variable {ledger : Ledger} {owner : CombinatorId} {desired : SpecSet}
  {target : TargetId}
  {spec : SectionSpec}

theorem planned_removal
    (planned :
      spec ∈ ((ledger.ownedSpecs owner target).difference desired).toList) :
    ∃ entry, ledger.at? ⟨target, spec.key⟩ = some (spec, entry) ∧
      entry.owner = owner := by
  exact Ledger.mem_ownedSpecs (Ascending.mem_difference.mp planned).1

theorem removal_tracked
    (planned :
      spec ∈ ((ledger.ownedSpecs owner target).difference desired).toList) :
    ledger.get? target spec ≠ none := by
  obtain ⟨entry, found, _⟩ := planned_removal planned
  simp [Ledger.get?_eq_at?, found]

/-- A place for which a section is to be added is not the owner's, so it stays
while others are removed. -/
theorem entriesFor_planned (ledger : Ledger) (owner : CombinatorId)
    (desired : SpecSet) (target : TargetId) :
    let plan := EditPlan.between (ledger.ownedSpecs owner target) desired
    (ledger.forgetAll target plan.remove).entriesFor target plan.inject =
      ledger.entriesFor target plan.inject := by
  intro plan
  apply Ledger.entriesFor_congr
  intro spec planned
  rw [Ledger.get?_eq_at?, Ledger.get?_eq_at?, Ledger.at?_forgetAll, if_neg]
  intro removed
  obtain ⟨_, other, otherPlanned, same⟩ := removed
  have has :=
    Ascending.contains_of_mem (Ascending.mem_difference.mp otherPlanned).1
  rw [same, (Ascending.mem_difference.mp planned).2] at has
  cases has

end Planned

section Target

variable {host : MemoryHost} {owner : CombinatorId} {tick : UInt64}

/-- Reconciliation of a target in closed form. -/
theorem target_eq (target : TargetId) (desired : SpecSet) (ledger : Ledger) :
    Reconciliation.target owner target desired tick ledger host =
      (reportOn (host.access target) ledger owner desired target,
        ledgerOn (host.access target) ledger owner desired tick target
          host.nextHandle,
        hostOn host ledger owner desired target) := by
  let owned := ledger.ownedSpecs owner target
  let work : TargetWork MemoryHost := ⟨ledger, host, .without target .applied⟩
  have alive : host.targetExists target = true ↔ _ :=
    MemoryHost.targetExists_iff
  have supported : host.supportsSections target = true ↔ _ :=
    MemoryHost.supportsSections_iff
  simp only [Reconciliation.target, SectionEditor.targetExists,
    SectionEditor.supportsSections]
  cases access : host.access target with
  | missing =>
      have gone : host.targetExists target = false := by
        simpa [access] using alive
      simp [gone, reportOn, ledgerOn, hostOn, access]
  | plain =>
      have there : host.targetExists target = true :=
        alive.mpr (by simp [access])
      have bare : host.supportsSections target = false := by
        simpa [access] using supported
      simp [there, bare, reportOn, ledgerOn, hostOn, access]
  | refusing reason =>
      have there : host.targetExists target = true :=
        alive.mpr (by simp [access])
      have able : host.supportsSections target = true :=
        supported.mpr (by simp [access])
      have removals :
          (owned.difference desired).toList.foldl TargetWork.remove work = _ :=
        TargetWork.removals_refusing work access fun spec => removal_tracked
      simp only [there, able, if_true, EditPlan.between]
      rw [removals, TargetWork.injections_refusing _ access]
      simp [work, reportOn, ledgerOn, hostOn, access, TargetReport.without,
        EditPlan.between, owned]
  | accepting =>
      have there : host.targetExists target = true :=
        alive.mpr (by simp [access])
      have able : host.supportsSections target = true :=
        supported.mpr (by simp [access])
      let toRemove := (owned.difference desired).toList
      let handles :=
        (ledger.entriesFor target toRemove).map TrackedSection.handle
      let cleared : TargetWork MemoryHost :=
        { ledger := ledger.forgetAll target toRemove
          host := host.removeAll target handles
          report := { work.report with removed := toRemove } }
      have removals : toRemove.foldl TargetWork.remove work = cleared :=
        TargetWork.removals_accepting work access (fun spec => removal_tracked)
          (owned.difference desired).keys_apart
      have still : cleared.host.access cleared.report.target = .accepting :=
        (MemoryHost.access_removeAll host _ _ _).trans access
      have additions :
          (desired.difference owned).toList.foldl (TargetWork.inject owner tick)
          cleared = _ :=
        TargetWork.injections_accepting cleared still
          (desired.difference owned).keys_apart
      have displaced := entriesFor_planned ledger owner desired target
      simp only [there, able, if_true, EditPlan.between]
      rw [removals, additions]
      simp only [work, cleared, toRemove, handles, reportOn, ledgerOn,
        hostOn, access, TargetReport.without, EditPlan.between,
        MemoryHost.nextHandle_removeAll, List.nil_append,
        owned] at displaced ⊢
      rw [displaced]

end Target

/-! ### The places of a target -/

/-- What reconciliation leaves at a place of the target, with a handle for what
is new. -/
def leaves (access : TargetAccess) (owner : CombinatorId) (desired : SpecSet)
    (tick : UInt64) (handle : SectionHandle) (place : SlotKey)
    (there : Option (SectionSpec × TrackedSection)) :
    Option (SectionSpec × TrackedSection) :=
  let own := there.any fun slot => slot.2.owner = owner
  match access with
  | .missing => if own then none else there
  | .plain | .refusing _ => there
  | .accepting =>
    if own then if desired.contains place.spec then there else none
    else
      match desired.find? place.spec with
      | none => there
      | some spec =>
        some
          ((there.map Prod.fst).getD spec,
            ⟨place.target, spec, owner, handle, tick⟩)

section Leaves

variable {access : TargetAccess} {owner : CombinatorId} {desired : SpecSet}
  {tick : UInt64}
  {handle : SectionHandle} {place : SlotKey}
  {there : Option (SectionSpec × TrackedSection)}

theorem leaves_self
    (foreign : (there.any fun slot => slot.2.owner = owner) = false)
    (undesired : desired.find? place.spec = none) :
    leaves access owner desired tick handle place there = there := by
  unfold leaves
  rw [foreign, undesired]
  cases access <;> rfl

/-- On a target that accepts edits the owner ends up with what it desires. -/
theorem owns_leaves_accepting :
    (leaves .accepting owner desired tick handle place there).any
      (fun slot => slot.2.owner = owner) = desired.contains place.spec := by
  cases own : there.any fun slot => slot.2.owner = owner with
  | true =>
      cases wanted : desired.contains place.spec <;> simp [leaves, own, wanted]
  | false =>
      cases wanted : desired.find? place.spec <;>
        simp [leaves, own, wanted, Ascending.contains]

theorem owns_leaves_missing :
    (leaves .missing owner desired tick handle place there).any
      (fun slot => slot.2.owner = owner) = false := by
  cases own : there.any fun slot => slot.2.owner = owner <;> simp [leaves, own]

/-- The entry of another owner stays, unless a section is added in its place. -/
theorem other_leaves {entry : TrackedSection} (other : entry.owner ≠ owner) :
    (leaves access owner desired tick handle place there).map Prod.snd =
      some entry ↔
        there.map Prod.snd = some entry ∧
        ¬ (access = .accepting ∧ desired.contains place.spec = true) := by
  cases own : there.any fun slot => slot.2.owner = owner with
  | true =>
      obtain ⟨slot, rfl, owned⟩ := (Option.any_eq_true _ _).mp own
      have apart : slot.2 ≠ entry := by
        rintro rfl
        exact other (by simpa using owned)
      have gone :
          (leaves access owner desired tick handle place (some slot)).map
            Prod.snd ≠
            some entry := by
        cases access <;> cases wanted : desired.contains place.spec <;>
          simp [leaves, own, wanted, apart]
      simp [gone, apart]
  | false =>
      cases access with
      | accepting =>
          cases wanted : desired.find? place.spec with
          | none => simp [leaves, own, wanted, Ascending.contains]
          | some spec =>
              have apart :
                  (⟨place.target, spec, owner, handle, tick⟩ : TrackedSection) ≠
                    entry := by
                rintro rfl
                exact other rfl
              simp [leaves, own, wanted, Ascending.contains, apart]
      | missing => simp [leaves, own]
      | plain => simp [leaves]
      | refusing reason => simp [leaves]

theorem leaves_handles (access : TargetAccess) (owner : CombinatorId)
    (desired : SpecSet) (tick : UInt64) (place : SlotKey)
    (there : Option (SectionSpec × TrackedSection)) :
    (∀ handle another, leaves access owner desired tick handle place there =
      leaves access owner desired tick another place there) ∨
    access = .accepting ∧ (there.any fun slot => slot.2.owner = owner) = false ∧
      ∃ spec ∈ desired.toList, spec.key = place.spec ∧ ∃ spelling, ∀ handle,
        leaves access owner desired tick handle place there =
          some (spelling, ⟨place.target, spec, owner, handle, tick⟩) := by
  cases access with
  | missing => exact .inl fun _ _ => rfl
  | plain => exact .inl fun _ _ => rfl
  | refusing reason => exact .inl fun _ _ => rfl
  | accepting =>
      cases own : there.any fun slot => slot.2.owner = owner with
      | true => exact .inl fun _ _ => by simp only [leaves, own, if_true]
      | false =>
          cases wanted : desired.find? place.spec with
          | none => exact .inl fun _ _ => by simp only [leaves, own, wanted]
          | some spec =>
              obtain ⟨member, same⟩ := Ascending.find?_eq_some_iff.mp wanted
              refine .inr
                ⟨rfl, rfl, spec, member, Std.LawfulEqOrd.eq_of_compare same, ?_⟩
              exact ⟨(there.map Prod.fst).getD spec,
                fun _ => by simp [leaves, own, wanted]⟩

/-- To reconcile once more changes nothing. -/
theorem leaves_leaves (another : SectionHandle) :
    leaves access owner desired tick another place
        (leaves access owner desired tick handle place there) =
        leaves access owner desired tick handle place there := by
  cases access with
  | missing =>
      cases own : there.any fun slot =>
        slot.2.owner = owner <;> simp [leaves, own]
  | plain => rfl
  | refusing reason => rfl
  | accepting =>
      cases own : there.any fun slot => slot.2.owner = owner <;>
        cases wanted : desired.find? place.spec <;>
          simp [leaves, own, wanted, Ascending.contains]

end Leaves

theorem at?_ledgerOn (access : TargetAccess) (ledger : Ledger)
    (owner : CombinatorId) (desired : SpecSet) (tick : UInt64)
    (target : TargetId) (next : UInt64) (place : SlotKey) :
    ∃ handle,
      (ledgerOn access ledger owner desired tick target next).at? place =
        if place.target = target then leaves access owner desired tick handle
          place (ledger.at? place)
      else ledger.at? place := by
  cases access with
  | missing =>
      refine ⟨⟨next⟩, ?_⟩
      rw [ledgerOn, Ledger.at?_forgetOwnedOn]
      cases there : ledger.at? place with
      | none => simp [leaves]
      | some slot =>
          have same : slot.2.target = place.target :=
            congrArg SlotKey.target (Ledger.place_of_at? there).2.1
          by_cases onTarget : place.target = target
          · by_cases own : slot.2.owner = owner
            · rw [Option.filter_some_neg (by simp [own, same, onTarget])]
              simp [leaves, own, onTarget]
            · rw [Option.filter_some_pos (by simp [own])]
              simp [leaves, own]
          · rw [Option.filter_some_pos (by simp [same, onTarget])]
            simp [onTarget]
  | plain => exact ⟨⟨next⟩, by simp [ledgerOn, leaves]⟩
  | refusing reason => exact ⟨⟨next⟩, by simp [ledgerOn, leaves]⟩
  | accepting =>
      let owned := ledger.ownedSpecs owner target
      obtain ⟨handle, recorded⟩ := Ledger.at?_recordAll
        (ledger.forgetAll target (owned.difference desired).toList)
        (desired.difference owned).keys_apart next place
      refine ⟨handle, recorded.trans ?_⟩
      by_cases onTarget : place.target = target
      · subst onTarget
        have own : owned.contains place.spec =
            (ledger.at? place).any fun slot => slot.2.owner = owner :=
          Bool.eq_iff_iff.mpr
            (Ledger.contains_ownedSpecs.trans Ledger.owns_iff_at?)
        have removed :
            (∃ spec ∈ (owned.difference desired).toList,
              spec.key = place.spec) ↔
              owned.contains place.spec = true ∧
              ¬ desired.contains place.spec = true :=
          Ascending.contains_iff.symm.trans Ascending.contains_difference
        have added : ((desired.difference owned).toList.find? fun spec =>
              compare spec.key place.spec == .eq) =
              if owned.contains place.spec then none
                else desired.find? place.spec := by
          refine (Ascending.find?_filter desired _ _).trans ?_
          cases wanted : desired.find? place.spec with
          | none => simp
          | some spec =>
              have same :=
                Std.LawfulEqOrd.eq_of_compare
                  (Ascending.find?_eq_some_iff.mp wanted).2
              rw [Option.filter_some, same]
              cases owned.contains place.spec <;> rfl
        rw [if_pos rfl, if_pos rfl, added, Ledger.at?_forgetAll]
        simp only [leaves, ← own, removed, true_and]
        cases has : owned.contains place.spec with
        | true => cases desired.contains place.spec <;> rfl
        | false => cases desired.find? place.spec <;> simp
      · rw [if_neg onTarget, if_neg onTarget, Ledger.at?_forgetAll,
          if_neg (by simp [onTarget])]

/-! ### What the report tells -/

section Report

variable {access : TargetAccess} {ledger : Ledger} {owner : CombinatorId}
  {desired : SpecSet} {target : TargetId}

@[simp]
theorem reportOn_target :
    (reportOn access ledger owner desired target).target = target := by
  cases access <;> rfl

theorem failures_reportOn (edit : SectionEdit) :
    ((reportOn access ledger owner desired target).failures.filter
      fun failure => failure.edit = edit).map SectionFailure.spec =
        match access, edit with
        | .refusing _, .remove =>
          ((ledger.ownedSpecs owner target).difference desired).toList
        | .refusing _, .add =>
          (desired.difference (ledger.ownedSpecs owner target)).toList
        | _, _ => [] := by
  cases access with
  | refusing reason =>
      cases edit <;>
        simp [reportOn, EditPlan.between, List.filter_map, Function.comp_def,
          List.filter_true, List.filter_false]
  | missing => rfl
  | plain => rfl
  | accepting => rfl

theorem owns_of_mem_removed {spec : SectionSpec}
    (removed : spec ∈ (reportOn access ledger owner desired target).removed) :
    ledger.Owns owner target spec.key := by
  cases access with
  | accepting =>
      exact Ledger.contains_ownedSpecs.mp
        (Ascending.contains_of_mem (Ascending.mem_difference.mp removed).1)
  | missing => cases removed
  | plain => cases removed
  | refusing reason => cases removed

theorem mem_injected_reportOn {spec : SectionSpec} :
    spec ∈ (reportOn access ledger owner desired target).injected ↔
      access = .accepting ∧ spec ∈ desired.toList ∧
        ¬ ledger.Owns owner target spec.key := by
  cases access with
  | accepting =>
      simp only [reportOn, EditPlan.between, Ascending.mem_difference, true_and]
      rw [← Ledger.contains_ownedSpecs, Bool.not_eq_true]
  | missing => simp [reportOn, TargetReport.without]
  | plain => simp [reportOn, TargetReport.without]
  | refusing reason => simp [reportOn, TargetReport.without]

/-- The entry of another owner is displaced by a section that is desired in its
place. -/
theorem mem_orphaned_reportOn {entry : TrackedSection} :
    entry ∈ (reportOn access ledger owner desired target).orphaned ↔
      entry ∈ ledger.entries ∧ entry.target = target ∧ entry.owner ≠ owner ∧
        access = .accepting ∧ desired.contains entry.spec.key = true := by
  cases access with
  | accepting =>
      simp only [reportOn, EditPlan.between, Ledger.entriesFor,
        List.mem_flatMap, Option.mem_toList, Ascending.mem_difference,
        Ledger.get?_eq_some_iff,
        true_and]
      have own (member : entry ∈ ledger.entries)
          (onTarget : entry.target = target) :
          (ledger.ownedSpecs owner target).contains entry.spec.key = true ↔
            entry.owner = owner := by
        rw [Ledger.contains_ownedSpecs, ← onTarget]
        exact Ledger.owns_iff_of_get? (Ledger.mem_entries_iff.mp member)
      constructor
      · intro planned
        obtain ⟨spec, ⟨wanted, absent⟩, member, onTarget, same⟩ := planned
        rw [← same] at absent
        refine ⟨member, onTarget, ?_, ?_⟩
        · rw [Ne, ← own member onTarget, absent]
          exact Bool.false_ne_true
        · rw [same]
          exact Ascending.contains_of_mem wanted
      · intro conditions
        obtain ⟨member, onTarget, foreign, contained⟩ := conditions
        obtain ⟨spec, wanted, same⟩ := Ascending.contains_iff.mp contained
        refine ⟨spec, ⟨wanted, ?_⟩, member, onTarget, same.symm⟩
        rw [same, ← Bool.not_eq_true, own member onTarget]
        exact foreign
  | missing => simp [reportOn, TargetReport.without]
  | plain => simp [reportOn, TargetReport.without]
  | refusing reason => simp [reportOn, TargetReport.without]

end Report

/-! ### Targets one after the other -/

theorem access_hostOn (host : MemoryHost) (ledger : Ledger)
    (owner : CombinatorId) (desired : SpecSet) (target other : TargetId) :
    (hostOn host ledger owner desired target).access other =
      host.access other := by
  unfold hostOn
  dsimp only
  split
  · exact (MemoryHost.access_addAll _ _ _ _).trans
      (MemoryHost.access_removeAll _ _ _ _)
  · rfl

theorem reportOn_congr (access : TargetAccess) {ledger other : Ledger}
    {owner : CombinatorId} {desired : SpecSet} {target : TargetId}
    (own : ledger.ownedSpecs owner target = other.ownedSpecs owner target)
    (wanted : ∀ spec ∈ desired.toList, ledger.get? target spec =
      other.get? target spec) :
    reportOn access ledger owner desired target =
      reportOn access other owner desired target := by
  let planned := (desired.difference (other.ownedSpecs owner target)).toList
  have displaced : ledger.entriesFor target planned =
      other.entriesFor target planned :=
    Ledger.entriesFor_congr fun spec planned =>
      wanted spec (Ascending.mem_difference.mp planned).1
  unfold reportOn
  rw [own]
  cases access <;> simp [EditPlan.between, displaced, planned]

theorem reportOn_of_at? (access : TargetAccess) {ledger other : Ledger}
    {owner : CombinatorId} {desired : SpecSet} {target : TargetId}
    (same : ∀ key, ledger.at? ⟨target, key⟩ = other.at? ⟨target, key⟩) :
    reportOn access ledger owner desired target =
      reportOn access other owner desired target := by
  apply reportOn_congr
  · exact Ledger.ownedSpecs_congr fun key => by rw [same key]
  · intro spec _
    rw [Ledger.get?_eq_at?, Ledger.get?_eq_at?, same]

theorem access_targets (owner : CombinatorId) (desired : SpecSet)
    (tick : UInt64) (list : List TargetId) (ledger : Ledger) (host : MemoryHost)
    (target : TargetId) :
    (targets owner desired tick list ledger host).2.2.access target =
      host.access target := by
  induction list generalizing ledger host with
  | nil => rfl
  | cons first rest ih =>
      simp only [targets, target_eq]
      exact (ih _ _).trans
        (access_hostOn host ledger owner desired first target)

/-- Every place on the targets is left as if its target stood alone, and the
others stay. -/
theorem at?_targets (owner : CombinatorId) (desired : SpecSet) (tick : UInt64)
    (list : List TargetId) (ledger : Ledger) (host : MemoryHost)
    (place : SlotKey) :
    ∃ handle, (targets owner desired tick list ledger host).2.1.at? place =
      if place.target ∈ list then
        leaves (host.access place.target) owner desired tick handle place
          (ledger.at? place)
      else ledger.at? place := by
  induction list generalizing ledger host with
  | nil => exact ⟨⟨0⟩, rfl⟩
  | cons first rest ih =>
      obtain ⟨firstHandle, here⟩ :=
        at?_ledgerOn (host.access first) ledger owner desired tick first
          host.nextHandle place
      obtain ⟨handle, later⟩ :=
        ih (ledgerOn (host.access first) ledger owner desired tick first
          host.nextHandle)
          (hostOn host ledger owner desired first)
      rw [access_hostOn, here] at later
      simp only [targets, target_eq, List.mem_cons]
      by_cases onFirst : place.target = first
      · subst onFirst
        -- The rest may name the target once more, which changes nothing.
        rw [if_pos rfl, leaves_leaves, ite_self] at later
        refine ⟨firstHandle, later.trans ?_⟩
        rw [if_pos (Or.inl rfl)]
      · refine ⟨handle, later.trans ?_⟩
        simp only [onFirst, false_or, if_false]

theorem at?_targets_elsewhere (owner : CombinatorId) (desired : SpecSet)
    (tick : UInt64) {list : List TargetId} (ledger : Ledger) (host : MemoryHost)
    {place : SlotKey} (off : place.target ∉ list) :
    (targets owner desired tick list ledger host).2.1.at? place =
      ledger.at? place := by
  obtain ⟨_, left⟩ := at?_targets owner desired tick list ledger host place
  rw [left, if_neg off]

/-- Targets do not see each other: every report is as if the others had not been
touched. -/
theorem targets_reports {list : List TargetId} (once : list.Nodup)
    (owner : CombinatorId) (desired : SpecSet) (tick : UInt64) (ledger : Ledger)
    (host : MemoryHost) :
    (targets owner desired tick list ledger host).1.targets =
      list.map fun target =>
      reportOn (host.access target) ledger owner desired target := by
  induction list generalizing ledger host with
  | nil => rfl
  | cons first rest ih =>
      obtain ⟨apart, restOnce⟩ := List.nodup_cons.mp once
      have here := at?_ledgerOn (host.access first) ledger owner desired tick
        first host.nextHandle
      simp only [targets, target_eq, List.map_cons]
      refine congrArg _
        ((ih restOnce _ _).trans (List.map_congr_left fun target member => ?_))
      rw [access_hostOn]
      apply reportOn_of_at?
      intro key
      obtain ⟨_, left⟩ := here ⟨target, key⟩
      rw [left, if_neg]
      exact fun same => apart (same ▸ member)

end Reconciliation

end CircuitSections
