import CircuitSections.Host.Recorded
import CircuitSections.Proofs.Tracking.Places
import CircuitSections.Proofs.Tracking.Reconciliation

/-!
# The answers of a host

A planned edit is asked for once, whatever became of the ones before it.  So the
answers of a host are those that it gives to the plan, asked for from front to
back, and the loops of a reconciliation only sort them
(`TargetWork.removals_eq`, `TargetWork.injections_eq`).
-/

namespace CircuitSections

namespace SectionEditor

variable {σ : Type} [SectionEditor σ]

/-- The answers to removals that are asked for one after the other. -/
def removeEach (target : TargetId) :
    List (SectionSpec × SectionHandle) → σ →
      List (SectionSpec × Except HostError Unit) × σ
  | [], host => ([], host)
  | (spec, handle) :: rest, host =>
    let (answer, host) := removeSection target handle host
    let (answers, host) := removeEach target rest host
    ((spec, answer) :: answers, host)

/-- The answers to additions that are asked for one after the other. -/
def addEach (target : TargetId) :
    List SectionSpec → σ →
      List (SectionSpec × Except HostError SectionHandle) × σ
  | [], host => ([], host)
  | spec :: rest, host =>
    let (answer, host) := addSection target spec host
    let (answers, host) := addEach target rest host
    ((spec, answer) :: answers, host)

theorem removeEach_specs (target : TargetId)
    (asked : List (SectionSpec × SectionHandle)) (host : σ) :
    (removeEach target asked host).1.map Prod.fst = asked.map Prod.fst := by
  induction asked generalizing host with
  | nil => rfl
  | cons first rest ih => exact congrArg (first.1 :: ·) (ih _)

theorem addEach_specs (target : TargetId) (asked : List SectionSpec)
    (host : σ) :
    (addEach target asked host).1.map Prod.fst = asked := by
  induction asked generalizing host with
  | nil => rfl
  | cons first rest ih => exact congrArg (first :: ·) (ih _)

theorem removeEach_recorded (target : TargetId)
    (asked : List (SectionSpec × SectionHandle)) (host : Recorded σ) :
    removeEach target asked host =
      let (answers, after) := removeEach target asked host.host
      (answers,
        ⟨after, host.calls ++ asked.map fun (_, handle) =>
          .remove target handle⟩) := by
  induction asked generalizing host with
  | nil => simp [removeEach]
  | cons first rest ih =>
      obtain ⟨spec, handle⟩ := first
      simp only [removeEach, ih, List.map_cons]
      simp only [removeSection, Recorded.ask, List.append_assoc,
        List.cons_append, List.nil_append]

theorem addEach_recorded (target : TargetId) (asked : List SectionSpec)
    (host : Recorded σ) :
    addEach target asked host =
      let (answers, after) := addEach target asked host.host
      (answers, ⟨after, host.calls ++ asked.map (.add target)⟩) := by
  induction asked generalizing host with
  | nil => simp [addEach]
  | cons spec rest ih =>
      simp only [addEach, ih, List.map_cons]
      simp only [addSection, Recorded.ask, List.append_assoc, List.cons_append,
        List.nil_append]

end SectionEditor

/-! ### Sorting the answers -/

/-- Whether a section is gone after an answer: it was removed, or the host had
it no longer. -/
def isGone : Except HostError Unit → Bool
  | .ok _ => true
  | .error (.sectionNotFound _ _) => true
  | .error (.targetNotFound _) => true
  | .error _ => false

/-- The specs whose sections are gone. -/
def goneIn (answers : List (SectionSpec × Except HostError Unit)) :
    List SectionSpec :=
  (answers.filter fun (_, answer) => isGone answer).map Prod.fst

theorem mem_goneIn {answers : List (SectionSpec × Except HostError Unit)}
    {spec : SectionSpec} :
    spec ∈ goneIn answers ↔ ∃ answer, (spec, answer) ∈ answers ∧
      isGone answer = true := by
  simp [goneIn]

/-- The failure that an answer to a removal stands for. -/
def removalFailure? : SectionSpec × Except HostError Unit →
    Option SectionFailure
  | (_, .ok _) => none
  | (spec, .error cause) =>
    if isGone (.error cause) then none else some ⟨.remove, spec, cause⟩

/-- The specs whose sections were added, with the handles. -/
def placedIn (answers : List (SectionSpec × Except HostError SectionHandle)) :
    List (SectionSpec × SectionHandle) :=
  answers.filterMap fun (spec, answer) => answer.toOption.map (spec, ·)

theorem mem_placedIn
    {answers : List (SectionSpec × Except HostError SectionHandle)}
    {spec : SectionSpec} {handle : SectionHandle} :
    (spec, handle) ∈ placedIn answers ↔ (spec, .ok handle) ∈ answers := by
  rw [placedIn, List.mem_filterMap]
  constructor
  · rintro ⟨⟨asked, answer⟩, listed, same⟩
    cases answer with
    | error cause => cases same
    | ok given =>
        cases same
        exact listed
  · intro listed
    exact ⟨_, listed, rfl⟩

theorem mem_injected
    {answers : List (SectionSpec × Except HostError SectionHandle)}
    {spec : SectionSpec} :
    spec ∈ (placedIn answers).map Prod.fst ↔
      ∃ handle, (spec, .ok handle) ∈ answers := by
  simp only [List.mem_map, Prod.exists, mem_placedIn, exists_and_right,
    exists_eq_right]

/-- The failure that an answer to an addition stands for. -/
def additionFailure? : SectionSpec × Except HostError SectionHandle →
    Option SectionFailure
  | (_, .ok _) => none
  | (spec, .error cause) => some ⟨.add, spec, cause⟩

theorem spec_of_removalFailure? {answer : SectionSpec × Except HostError Unit}
    {failure : SectionFailure}
    (failed : removalFailure? answer = some failure) :
    failure.edit = .remove ∧ failure.spec = answer.1 := by
  obtain ⟨spec, reply⟩ := answer
  cases reply with
  | ok _ => cases failed
  | error cause =>
      obtain ⟨_, same⟩ := Option.ite_none_left_eq_some.mp failed
      cases same
      exact ⟨rfl, rfl⟩

theorem isSome_removalFailure? (spec : SectionSpec)
    (answer : Except HostError Unit) :
    (removalFailure? (spec, answer)).isSome = !isGone answer := by
  cases answer with
  | ok _ => rfl
  | error cause => cases cause <;> rfl

theorem spec_of_additionFailure?
    {answer : SectionSpec × Except HostError SectionHandle}
    {failure : SectionFailure}
    (failed : additionFailure? answer = some failure) :
    failure.edit = .add ∧ failure.spec = answer.1 := by
  obtain ⟨spec, reply⟩ := answer
  cases reply with
  | ok _ => cases failed
  | error cause =>
      cases failed
      exact ⟨rfl, rfl⟩

theorem specs_of_failures {α : Type}
    {failure? : SectionSpec × α → Option SectionFailure}
    {edit : SectionEdit}
    (named : ∀ answer failure, failure? answer = some failure →
      failure.edit = edit ∧ failure.spec = answer.1)
      (answers : List (SectionSpec × α)) :
    (answers.filterMap failure?).map SectionFailure.spec =
      (answers.filter fun answer => (failure? answer).isSome).map Prod.fst := by
  induction answers with
  | nil => rfl
  | cons first rest ih =>
      cases failed : failure? first with
      | none => simp [failed, ih]
      | some failure => simp [failed, ih, (named first failure failed).2]

theorem filter_edit {failures : List SectionFailure} {edit : SectionEdit}
    (all : ∀ failure ∈ failures, failure.edit = edit) (other : SectionEdit) :
    (failures.filter fun failure => failure.edit = other) =
      if edit = other then failures else [] := by
  split
  next same =>
    apply List.filter_eq_self.mpr
    intro failure listed
    exact decide_eq_true (same ▸ all failure listed)
  next different =>
    apply List.filter_eq_nil_iff.mpr
    intro failure listed same
    exact different (all failure listed ▸ of_decide_eq_true same)

/-- The failures of removals stand in front of those of additions. -/
theorem specs_of_edit (removals : List (SectionSpec × Except HostError Unit))
    (additions : List (SectionSpec × Except HostError SectionHandle))
    (edit : SectionEdit) :
    ((removals.filterMap removalFailure? ++
      additions.filterMap additionFailure?).filter
        fun failure => failure.edit = edit).map SectionFailure.spec =
        match edit with
        | .remove =>
          (removals.filterMap removalFailure?).map SectionFailure.spec
        | .add =>
          (additions.filterMap additionFailure?).map SectionFailure.spec := by
  have removing : ∀ failure ∈ removals.filterMap removalFailure?,
      failure.edit = .remove := by
    intro failure listed
    obtain ⟨_, _, failed⟩ := List.mem_filterMap.mp listed
    exact (spec_of_removalFailure? failed).1
  have adding : ∀ failure ∈ additions.filterMap additionFailure?,
      failure.edit = .add := by
    intro failure listed
    obtain ⟨_, _, failed⟩ := List.mem_filterMap.mp listed
    exact (spec_of_additionFailure? failed).1
  rw [List.filter_append, filter_edit removing, filter_edit adding]
  cases edit with
  | remove => exact congrArg _ (List.append_nil _)
  | add => rfl

namespace Ledger

/-- The specs that are tracked on a target among the given ones, with the
handles. -/
def handlesFor (ledger : Ledger) (target : TargetId)
    (specs : List SectionSpec) :
    List (SectionSpec × SectionHandle) :=
  specs.filterMap fun spec => (ledger.get? target spec).map fun entry =>
    (spec, entry.handle)

theorem handlesFor_congr {ledger other : Ledger} {target : TargetId}
    {specs : List SectionSpec}
    (same : ∀ spec ∈ specs, ledger.get? target spec = other.get? target spec) :
    ledger.handlesFor target specs = other.handlesFor target specs := by
  apply List.filterMap_congr
  intro spec member
  rw [same spec member]

/-- Tracks the sections of an owner that were added. -/
def recordEach (ledger : Ledger) (owner : CombinatorId) (tick : UInt64)
    (target : TargetId) (placed : List (SectionSpec × SectionHandle)) :
    Ledger :=
  placed.foldl (fun ledger (spec, handle) =>
    (ledger.record ⟨target, spec, owner, handle, tick⟩).2) ledger

variable {ledger : Ledger} {owner : CombinatorId} {tick : UInt64}
  {target : TargetId}
  {placed : List (SectionSpec × SectionHandle)}

theorem recordEach_cons (ledger : Ledger) (spec : SectionSpec)
    (handle : SectionHandle) (rest : List (SectionSpec × SectionHandle)) :
    ledger.recordEach owner tick target ((spec, handle) :: rest) =
      (ledger.record ⟨target, spec, owner, handle, tick⟩).2.recordEach owner
        tick target rest := rfl

theorem at?_recordEach_elsewhere {place : SlotKey}
    (other : place.target = target → ∀ added ∈ placed,
      added.1.key ≠ place.spec) :
    (ledger.recordEach owner tick target placed).at? place =
      ledger.at? place := by
  induction placed generalizing ledger with
  | nil => rfl
  | cons first rest ih =>
      obtain ⟨spec, handle⟩ := first
      have apart :
          (⟨target, spec, owner, handle, tick⟩ : TrackedSection).place ≠
            place := by
        rintro rfl
        exact other rfl (spec, handle) List.mem_cons_self rfl
      rw [recordEach_cons, ih, at?_record, if_neg apart]
      intro onTarget added listed
      exact other onTarget added (List.mem_cons_of_mem _ listed)

theorem at?_recordEach (distinct : placed.Pairwise fun a b => a.1.key ≠ b.1.key)
    {spec : SectionSpec} {handle : SectionHandle}
    (member : (spec, handle) ∈ placed) :
    ∃ spelling, (ledger.recordEach owner tick target placed).at?
      ⟨target, spec.key⟩ =
        some (spelling, ⟨target, spec, owner, handle, tick⟩) := by
  induction placed generalizing ledger with
  | nil => cases member
  | cons first rest ih =>
      obtain ⟨apart, restDistinct⟩ := List.pairwise_cons.mp distinct
      rcases List.mem_cons.mp member with rfl | later
      · have here :
            (⟨target, spec, owner, handle, tick⟩ : TrackedSection).place =
              ⟨target, spec.key⟩ := rfl
        have later : ∀ added ∈ rest, added.1.key ≠ spec.key := by
          intro added listed
          exact Ne.symm (apart added listed)
        rw [recordEach_cons, at?_recordEach_elsewhere fun _ =>
          later, at?_record, if_pos here]
        exact ⟨_, rfl⟩
      · exact ih restDistinct later

end Ledger

namespace TargetWork

variable {σ : Type} {owner : CombinatorId} {tick : UInt64}

/-- The work after the answers to removals. -/
def withRemovals (work : TargetWork σ)
    (answers : List (SectionSpec × Except HostError Unit)) (host : σ) :
    TargetWork σ where
  ledger := work.ledger.forgetAll work.report.target (goneIn answers)
  host
  report :=
    { work.report with
      removed := work.report.removed ++ goneIn answers
      failures := work.report.failures ++ answers.filterMap removalFailure? }

theorem withRemovals_cons (work : TargetWork σ)
    (first : SectionSpec × Except HostError Unit)
    (rest : List (SectionSpec × Except HostError Unit)) (host next : σ) :
    (work.withRemovals [first] host).withRemovals rest next =
      work.withRemovals (first :: rest) next := by
  have gone : goneIn (first :: rest) = goneIn [first] ++ goneIn rest := by
    rw [goneIn, ← List.singleton_append, List.filter_append, List.map_append]
    rfl
  have failures : (first :: rest).filterMap removalFailure? =
      [first].filterMap removalFailure? ++ rest.filterMap removalFailure? := by
    rw [← List.singleton_append, List.filterMap_append]
  simp only [withRemovals, Ledger.forgetAll, gone, failures, List.foldl_append,
    List.append_assoc]

/-- Whether or not a section is forgotten, the others on the target stay where
they are. -/
theorem handlesFor_withRemovals (work : TargetWork σ) {spec : SectionSpec}
    {rest : List SectionSpec} (apart : ∀ other ∈ rest, spec.key ≠ other.key)
    (answer : Except HostError Unit) (host : σ) :
    (work.withRemovals [(spec, answer)] host).ledger.handlesFor
      work.report.target rest =
        work.ledger.handlesFor work.report.target rest := by
  apply Ledger.handlesFor_congr
  intro other member
  have elsewhere : ¬ ∃ first ∈ goneIn [(spec, answer)], first.key =
      other.key := by
    rintro ⟨first, listed, same⟩
    obtain ⟨_, kept, rfl⟩ := List.mem_map.mp listed
    rw [List.mem_singleton.mp (List.mem_filter.mp kept).1] at same
    exact apart other member same
  rw [withRemovals, Ledger.get?_eq_at?, Ledger.get?_eq_at?,
    Ledger.at?_forgetAll, if_neg fun here => elsewhere here.2]

/-- The work after the answers to additions. -/
def withAdditions (work : TargetWork σ) (owner : CombinatorId) (tick : UInt64)
    (answers : List (SectionSpec × Except HostError SectionHandle)) (host : σ) :
    TargetWork σ where
  ledger :=
    work.ledger.recordEach owner tick work.report.target (placedIn answers)
  host
  report :=
    { work.report with
      injected := work.report.injected ++ (placedIn answers).map Prod.fst
      orphaned := work.report.orphaned ++
        work.ledger.entriesFor work.report.target
          ((placedIn answers).map Prod.fst)
      failures := work.report.failures ++ answers.filterMap additionFailure? }

theorem withAdditions_cons (work : TargetWork σ) {spec : SectionSpec}
    (answer : Except HostError SectionHandle)
    {rest : List (SectionSpec × Except HostError SectionHandle)}
    (apart : ∀ other ∈ rest, spec.key ≠ other.1.key) (host next : σ) :
    (work.withAdditions owner tick [(spec, answer)] host).withAdditions owner
      tick rest next =
        work.withAdditions owner tick ((spec, answer) :: rest) next := by
  cases answer with
  | error cause =>
      simp [withAdditions, placedIn, additionFailure?, Except.toOption,
        Ledger.recordEach, Ledger.entriesFor]
  | ok handle =>
      let target := work.report.target
      let recorded := (work.ledger.record ⟨target, spec, owner, handle, tick⟩).2
      have kept : recorded.entriesFor target ((placedIn rest).map Prod.fst) =
          work.ledger.entriesFor target ((placedIn rest).map Prod.fst) := by
        apply Ledger.entriesFor_congr
        intro other listed
        obtain ⟨⟨_, given⟩, placed, rfl⟩ := List.mem_map.mp listed
        have different : spec.key ≠ _ := apart _ (mem_placedIn.mp placed)
        rw [Ledger.get?_record, if_neg]
        intro same
        exact different (congrArg SlotKey.spec same)
      have first : placedIn ((spec, .ok handle) :: rest) =
          (spec, handle) :: placedIn rest := rfl
      have failures :
          ((spec, Except.ok handle) :: rest).filterMap additionFailure? =
            rest.filterMap additionFailure? := rfl
      have single : placedIn [(spec, .ok handle)] = [(spec, handle)] := rfl
      have none : [(spec, Except.ok handle)].filterMap additionFailure? = [] :=
        rfl
      have ledger : work.ledger.recordEach owner tick target [(spec, handle)] =
          recorded := rfl
      have alone : work.ledger.entriesFor target [spec] =
          (work.ledger.get? target spec).toList := by simp [Ledger.entriesFor]
      simp only [withAdditions, first, single, failures, none,
        ledger, kept, alone, List.map_cons, List.map_nil,
        Ledger.entriesFor_cons, List.append_assoc,
        List.nil_append, List.cons_append, target]
      rfl

/-! ### The loops -/

variable [SectionEditor σ]

theorem remove_of_tracked {work : TargetWork σ} {spec : SectionSpec}
    {entry : TrackedSection} {answer : Except HostError Unit} {host : σ}
    (tracked : work.ledger.get? work.report.target spec = some entry)
    (answered :
      SectionEditor.removeSection work.report.target entry.handle work.host =
        (answer, host)) :
      work.remove spec = work.withRemovals [(spec, answer)] host := by
  unfold remove
  rw [tracked]
  dsimp only
  rw [answered]
  cases answer with
  | ok _ =>
      simp [withRemovals, confirmRemoval, goneIn, isGone, removalFailure?,
        Ledger.forgetAll]
  | error cause =>
      cases cause <;>
        simp [withRemovals, confirmRemoval, noteFailure, goneIn, isGone,
          removalFailure?, Ledger.forgetAll]

theorem removals_eq {work : TargetWork σ} {specs : List SectionSpec}
    (distinct : specs.Pairwise fun a b => a.key ≠ b.key)
    {answers : List (SectionSpec × Except HostError Unit)} {host : σ}
    (answered : SectionEditor.removeEach work.report.target
      (work.ledger.handlesFor work.report.target specs) work.host =
        (answers, host)) :
    specs.foldl remove work = work.withRemovals answers host := by
  induction specs generalizing work answers with
  | nil =>
      cases answered
      simp [withRemovals, goneIn, Ledger.forgetAll]
  | cons spec rest ih =>
      obtain ⟨apart, restDistinct⟩ := List.pairwise_cons.mp distinct
      cases tracked : work.ledger.get? work.report.target spec with
      | none =>
          have idle : work.remove spec = work := by
            unfold remove
            rw [tracked]
          have skipped :
              work.ledger.handlesFor work.report.target (spec :: rest) =
                work.ledger.handlesFor work.report.target rest := by
            simp [Ledger.handlesFor, tracked]
          rw [List.foldl_cons, idle]
          exact ih restDistinct (skipped ▸ answered)
      | some entry =>
          have asked :
              work.ledger.handlesFor work.report.target (spec :: rest) =
                (spec, entry.handle) :: work.ledger.handlesFor
                  work.report.target rest := by
            simp [Ledger.handlesFor, tracked]
          rcases reply : SectionEditor.removeSection work.report.target
            entry.handle work.host
            with ⟨answer, next⟩
          rcases later : SectionEditor.removeEach work.report.target
            (work.ledger.handlesFor work.report.target rest)
              next with ⟨others, final⟩
          have both : ((spec, answer) :: others, final) = (answers, host) := by
            rw [← answered, asked]
            simp only [SectionEditor.removeEach, reply, later]
          cases both
          rw [← handlesFor_withRemovals work apart answer next] at later
          rw [List.foldl_cons, remove_of_tracked tracked reply,
            ih restDistinct later, withRemovals_cons]

theorem inject_eq {work : TargetWork σ} {spec : SectionSpec}
    {answer : Except HostError SectionHandle} {host : σ}
    (answered : SectionEditor.addSection work.report.target spec work.host =
      (answer, host)) :
    inject owner tick work spec =
      work.withAdditions owner tick [(spec, answer)] host := by
  unfold inject
  rw [answered]
  cases answer with
  | ok handle =>
      simp [withAdditions, confirmInjection, placedIn, additionFailure?,
        Ledger.recordEach, Ledger.entriesFor, Except.toOption, Ledger.record]
  | error cause =>
      simp [withAdditions, noteFailure, placedIn, additionFailure?,
        Ledger.recordEach, Ledger.entriesFor, Except.toOption]

theorem injections_eq {work : TargetWork σ} {specs : List SectionSpec}
    (distinct : specs.Pairwise fun a b => a.key ≠ b.key)
    {answers : List (SectionSpec × Except HostError SectionHandle)} {host : σ}
    (answered : SectionEditor.addEach work.report.target specs work.host =
      (answers, host)) :
    specs.foldl (inject owner tick) work =
      work.withAdditions owner tick answers host := by
  induction specs generalizing work answers with
  | nil =>
      cases answered
      simp [withAdditions, placedIn, Ledger.recordEach, Ledger.entriesFor]
  | cons spec rest ih =>
      obtain ⟨apart, restDistinct⟩ := List.pairwise_cons.mp distinct
      rcases reply : SectionEditor.addSection work.report.target spec
        work.host with ⟨answer, next⟩
      rcases later : SectionEditor.addEach work.report.target rest next with
        ⟨others, final⟩
      have both : ((spec, answer) :: others, final) = (answers, host) := by
        rw [← answered]
        simp only [SectionEditor.addEach, reply, later]
      cases both
      have among : ∀ other ∈ others, spec.key ≠ other.1.key := by
        intro other listed
        have asked := SectionEditor.addEach_specs work.report.target rest next
        rw [later] at asked
        exact apart other.1 (asked ▸ List.mem_map_of_mem listed)
      rw [List.foldl_cons, inject_eq reply,
        ← withAdditions_cons work answer among next]
      exact ih restDistinct later

end TargetWork

end CircuitSections
