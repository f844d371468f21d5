import CircuitSections.Proofs.Run.Memory
import CircuitSections.Proofs.Tracking.Outcome

/-!
# The outcome of a pass

What a combinator has after a pass that reconciled differs from what it should
have only by what the report says.  On a target that refuses edits the
differences are the failures that are reported; where no edit is attempted
nothing changes, and a target that is gone is dropped.  Other combinators lose
just the entries that are reported as displaced.
-/

namespace CircuitSections

/-! ### What a report says -/

namespace ReconcileReport

/-- The specs of the failures of an edit of a target. -/
def failed (report : ReconcileReport) (edit : SectionEdit) (target : TargetId) :
    List SectionSpec :=
  (report.failures.filter fun failure =>
    failure.1 = target && failure.2.edit = edit).map
    fun failure => failure.2.spec

/-- The sections that were added, with their targets. -/
def injected (report : ReconcileReport) : List (TargetId × SectionSpec) :=
  report.targets.flatMap fun target => target.injected.map fun spec =>
    (target.target, spec)

end ReconcileReport

namespace Combinator

/-- What a combinator should have on a target: what it desires if the target is
wired, and nothing else. -/
def due (wired : List TargetId) (desired : SpecSet)
    (target : TargetId) : SpecSet :=
  if wired.contains target then desired else .empty

theorem due_of_mem {wired : List TargetId} {target : TargetId}
    (listed : target ∈ wired) (desired : SpecSet) :
    due wired desired target = desired := by
  simp [due, listed]

theorem due_of_not_mem {wired : List TargetId} {target : TargetId}
    (unlisted : target ∉ wired) (desired : SpecSet) :
    due wired desired target = .empty := by
  simp [due, unlisted]

theorem contains_due_iff {wired : List TargetId} {desired : SpecSet}
    {target : TargetId} {key : SpecKey} :
    (due wired desired target).contains key = true ↔
      target ∈ wired ∧ desired.contains key = true := by
  by_cases listed : target ∈ wired
  · simp [due_of_mem listed, listed]
  · simp [due_of_not_mem listed, listed]

/-- The targets outside the wiring on which an owner has something. -/
def unwired (ledger : Ledger) (owner : CombinatorId)
    (wired : List TargetId) : TargetSet :=
  (ledger.ownedTargets owner).difference (TargetSet.ofList wired)

section Reconcile

variable {ledger : Ledger} {host : MemoryHost} {id : CombinatorId}
  {wired : List TargetId}
  {tick : UInt64}

theorem mem_unwired {target : TargetId} :
    target ∈ (unwired ledger id wired).toList ↔
      target ∉ wired ∧ ∃ key, ledger.Owns id target key := by
  rw [← Ascending.contains_iff_mem, unwired, Ascending.contains_difference,
    Ledger.contains_ownedTargets_iff, TargetSet.contains_ofList, and_comm]

theorem unwired_nodup (ledger : Ledger) (id : CombinatorId)
    (wired : List TargetId) :
    (unwired ledger id wired).toList.Nodup := by
  simpa [Ascending.keys] using (unwired ledger id wired).keys_nodup

/-- Which targets are cleared is known before the wired ones are brought up to
date. -/
theorem reconcile_eq (wired : List TargetId) (desired : SpecSet)
    (ledger : Ledger) (host : MemoryHost) :
    reconcile id wired desired tick ledger host =
      let (onWired, between, asked) :=
        Reconciliation.targets id desired tick wired ledger host
      let (onOthers, after, final) := Reconciliation.targets id .empty tick
        (unwired ledger id wired).toList between asked
      (onWired ++ onOthers, after, final) := by
  -- The edits on the wired targets do not touch a place off the wiring.
  have same :
      unwired (Reconciliation.targets id desired tick wired ledger host).2.1 id
        wired =
        unwired ledger id wired := by
    apply Ascending.ext_mem
    intro target
    rw [mem_unwired, mem_unwired]
    refine and_congr_right fun off => exists_congr fun key => ?_
    rw [Ledger.owns_iff_at?, Ledger.owns_iff_at?,
      Reconciliation.at?_targets_elsewhere id desired tick ledger host off]
  rw [← same]
  rfl

/-- Reconciliation leaves at every place what is due there, as far as the target
takes edits. -/
theorem at?_reconcile (id : CombinatorId) (wired : List TargetId)
    (desired : SpecSet) (tick : UInt64) (ledger : Ledger) (host : MemoryHost)
    (place : SlotKey) :
    ∃ handle, (reconcile id wired desired tick ledger host).2.1.at? place =
      Reconciliation.leaves (host.access place.target) id
        (due wired desired place.target) tick
        handle place (ledger.at? place) := by
  let between := (Reconciliation.targets id desired tick wired ledger host).2.1
  let asked := (Reconciliation.targets id desired tick wired ledger host).2.2
  have access : asked.access place.target = host.access place.target :=
    Reconciliation.access_targets id desired tick wired ledger host place.target
  obtain ⟨wiredHandle, onWired⟩ :=
    Reconciliation.at?_targets id desired tick wired ledger host place
  obtain ⟨handle, onOthers⟩ :=
    Reconciliation.at?_targets id .empty tick (unwired ledger id wired).toList
      between asked place
  rw [access] at onOthers
  rw [reconcile_eq]
  by_cases listed : place.target ∈ wired
  · rw [if_pos listed] at onWired
    rw [if_neg fun member => (mem_unwired.mp member).1 listed] at onOthers
    rw [due_of_mem listed]
    exact ⟨wiredHandle, onOthers.trans onWired⟩
  · rw [if_neg listed] at onWired
    have before : between.at? place = ledger.at? place := onWired
    rw [before] at onOthers
    rw [due_of_not_mem listed]
    refine ⟨handle, onOthers.trans ?_⟩
    split
    · rfl
    next nothing =>
        have foreign : ¬ ledger.Owns id place.target place.spec :=
          fun owns => nothing (mem_unwired.mpr ⟨listed, _, owns⟩)
        rw [Ledger.owns_iff_at?, Bool.not_eq_true] at foreign
        exact (Reconciliation.leaves_self foreign rfl).symm

/-- The reports on the wired targets and then on the others, each as if the
target stood alone. -/
theorem reconcile_reports (once : wired.Nodup) (id : CombinatorId)
    (desired : SpecSet) (tick : UInt64) (ledger : Ledger) (host : MemoryHost) :
    (reconcile id wired desired tick ledger host).1.targets =
      (wired ++ (unwired ledger id wired).toList).map fun target =>
        Reconciliation.reportOn (host.access target) ledger id
          (due wired desired target)
          target := by
  let between := (Reconciliation.targets id desired tick wired ledger host).2.1
  let asked := (Reconciliation.targets id desired tick wired ledger host).2.2
  have onWired :=
    Reconciliation.targets_reports once id desired tick ledger host
  have onOthers :=
    Reconciliation.targets_reports (unwired_nodup ledger id wired) id .empty
      tick
      between asked
  rw [reconcile_eq]
  refine (congr (congrArg HAppend.hAppend onWired) onOthers).trans ?_
  rw [List.map_append]
  refine congr (congrArg _ (List.map_congr_left fun target member => ?_))
    (List.map_congr_left fun target member => ?_)
  · rw [due_of_mem member]
  · have off := (mem_unwired.mp member).1
    rw [due_of_not_mem off, Reconciliation.access_targets]
    exact Reconciliation.reportOn_of_at? _ fun key =>
      Reconciliation.at?_targets_elsewhere id desired tick ledger host off

/-- Where edits are accepted as far as there is anything to edit, reconciliation
leaves a combinator with what it desires on the wired targets, and with nothing
else. -/
theorem reconcile_owns {desired : SpecSet} {target : TargetId} {key : SpecKey}
    (accepts : target ∈ wired ∨ ledger.Owns id target key →
      host.Accepts target) :
    (reconcile id wired desired tick ledger host).2.1.Owns id target key ↔
      target ∈ wired ∧ desired.contains key = true := by
  obtain ⟨handle, left⟩ :=
    at?_reconcile id wired desired tick ledger host ⟨target, key⟩
  rw [Ledger.owns_iff_at?, left, ← contains_due_iff]
  by_cases concerned : target ∈ wired ∨ ledger.Owns id target key
  · rw [MemoryHost.access_eq_accepting_iff.mpr (accepts concerned),
      Reconciliation.owns_leaves_accepting]
  · obtain ⟨off, foreign⟩ := not_or.mp concerned
    rw [Ledger.owns_iff_at?, Bool.not_eq_true] at foreign
    rw [due_of_not_mem off, Reconciliation.leaves_self foreign rfl, foreign]
    rfl

theorem reported_targets (once : wired.Nodup) :
    (wired ++ (unwired ledger id wired).toList).Nodup := by
  rw [List.nodup_append]
  refine ⟨once, unwired_nodup ledger id wired, ?_⟩
  rintro target listed _ member rfl
  exact (mem_unwired.mp member).1 listed

theorem due_eq_empty_of_unlisted {desired : SpecSet} {target : TargetId}
    (unlisted : target ∉ wired ++ (unwired ledger id wired).toList) :
    due wired desired target = .empty ∧
      ledger.ownedSpecs id target = .empty := by
  rw [List.mem_append, not_or] at unlisted
  obtain ⟨off, nothing⟩ := unlisted
  constructor
  · exact due_of_not_mem off desired
  · apply Ledger.ownedSpecs_eq_empty_iff.mpr
    intro key owns
    exact nothing (mem_unwired.mpr ⟨off, key, owns⟩)

end Reconcile

end Combinator

namespace ReconcileReport

variable {report : ReconcileReport} {list : List TargetId}
  {on : TargetId → TargetReport}

theorem failed_eq (reports : report.targets = list.map on)
    (named : ∀ target, (on target).target = target) (once : list.Nodup)
    (edit : SectionEdit) (target : TargetId) :
    report.failed edit target =
      if target ∈ list then
        ((on target).failures.filter fun failure => failure.edit = edit).map
          SectionFailure.spec
      else [] := by
  have head (first : TargetId) :
      (((on first).failures.map fun failure =>
        ((on first).target, failure)).filter fun failure =>
          failure.1 = target && failure.2.edit = edit).map
            (fun failure => failure.2.spec) =
          if target = first then
            ((on first).failures.filter fun failure => failure.edit = edit).map
              SectionFailure.spec
        else [] := by
    rw [List.filter_map, List.map_map, named]
    by_cases same : target = first
    · simp [same, Function.comp_def]
    · simp [same, Ne.symm same, Function.comp_def, List.filter_false]
  rw [failed, failures, reports]
  clear reports
  induction list with
  | nil => rfl
  | cons first rest ih =>
      obtain ⟨apart, restOnce⟩ := List.nodup_cons.mp once
      rw [List.map_cons, List.flatMap_cons, List.filter_append, List.map_append,
        head, ih restOnce]
      by_cases same : target = first
      · simp [same, apart]
      · simp [same]

theorem mem_injected (reports : report.targets = list.map on)
    (named : ∀ target, (on target).target = target) {target : TargetId}
    {spec : SectionSpec} :
    (target, spec) ∈ report.injected ↔ target ∈ list ∧
      spec ∈ (on target).injected := by
  simp [injected, reports, List.mem_flatMap, named]

end ReconcileReport

namespace Combinator

section Accounts

variable {ledger : Ledger} {host : MemoryHost} {id : CombinatorId}
  {wired : List TargetId}
  {tick : UInt64} {desired : SpecSet} {outcome : ReconcileReport}
  {after : Ledger}
  {asked : MemoryHost}

/-- On targets that can hold sections, the owner has what is due but for the
failures. -/
theorem reconcile_differences (once : wired.Nodup)
    (ran : reconcile id wired desired tick ledger host =
      (outcome, after, asked))
    {target : TargetId} (supports : host.supportsSections target = true) :
    ((after.ownedSpecs id target).difference
      (due wired desired target)).toList =
        outcome.failed .remove target ∧
      ((due wired desired target).difference
        (after.ownedSpecs id target)).toList =
          outcome.failed .add target := by
  have reports := reconcile_reports once id desired tick ledger host
  have left := at?_reconcile id wired desired tick ledger host
  rw [ran] at reports left
  have failed :=
    ReconcileReport.failed_eq reports (fun _ => Reconciliation.reportOn_target)
      (reported_targets once)
  rw [failed, failed, Reconciliation.failures_reportOn,
    Reconciliation.failures_reportOn]
  obtain ⟨there, able⟩ := MemoryHost.supportsSections_iff.mp supports
  cases access : host.access target with
  | missing => exact absurd access there
  | plain => exact absurd access able
  | refusing reason =>
      -- Nothing is edited, so what differed before is what differs now, and all
      -- of it is reported.
      have same : after.ownedSpecs id target = ledger.ownedSpecs id target := by
        apply Ledger.ownedSpecs_congr
        intro key
        obtain ⟨handle, here⟩ := left ⟨target, key⟩
        rw [here, access]
        rfl
      by_cases listed : target ∈ wired ++ (unwired ledger id wired).toList
      · simp [listed, same]
      · obtain ⟨nothing, none⟩ := due_eq_empty_of_unlisted listed
        rw [same, nothing, none, if_neg listed]
        exact ⟨rfl, rfl⟩
  | accepting =>
      have has (key : SpecKey) :
          (after.ownedSpecs id target).contains key = true ↔
            (due wired desired target).contains key = true := by
        obtain ⟨handle, here⟩ := left ⟨target, key⟩
        rw [Ledger.contains_ownedSpecs, Ledger.owns_iff_at?, here, access,
          Reconciliation.owns_leaves_accepting]
      rw [Ascending.difference_eq_nil fun key => (has key).mp,
        Ascending.difference_eq_nil fun key => (has key).mpr]
      simp

/-- What others have stays, but for what is displaced. -/
theorem reconcile_others (once : wired.Nodup)
    (ran : reconcile id wired desired tick ledger host =
      (outcome, after, asked))
    {entry : TrackedSection} :
    (entry ∈ outcome.orphaned ↔ entry ∈ ledger.entries ∧ entry.owner ≠ id ∧
      ∃ spec, (entry.target, spec) ∈ outcome.injected ∧
        spec.key = entry.spec.key) ∧
    (entry.owner ≠ id → (entry ∈ after.entries ↔
      entry ∈ ledger.entries ∧ entry ∉ outcome.orphaned)) := by
  have reports := reconcile_reports once id desired tick ledger host
  have left := at?_reconcile id wired desired tick ledger host
  rw [ran] at reports left
  have listed (target : TargetId) (key : SpecKey)
      (contained : (due wired desired target).contains key = true) :
      target ∈ wired ++ (unwired ledger id wired).toList := by
    apply Decidable.byContradiction
    intro unlisted
    rw [(due_eq_empty_of_unlisted unlisted).1] at contained
    cases contained
  have orphaned : entry ∈ outcome.orphaned ↔ entry ∈ ledger.entries ∧
      entry.owner ≠ id ∧
      host.access entry.target = .accepting ∧
        (due wired desired entry.target).contains entry.spec.key = true := by
    rw [ReconcileReport.orphaned, reports, List.flatMap_map]
    simp only [List.mem_flatMap, Reconciliation.mem_orphaned_reportOn]
    constructor
    · intro displaced
      obtain ⟨target, _, member, rfl, rest⟩ := displaced
      exact ⟨member, rest⟩
    · intro displaced
      obtain ⟨member, foreign, accepting, contained⟩ := displaced
      exact ⟨entry.target, listed _ _ contained, member, rfl, foreign,
        accepting, contained⟩
  constructor
  · rw [orphaned]
    refine and_congr_right fun member => and_congr_right fun other => ?_
    simp only [ReconcileReport.mem_injected reports fun _ =>
      Reconciliation.reportOn_target, Reconciliation.mem_injected_reportOn]
    constructor
    · intro displaced
      obtain ⟨accepting, contained⟩ := displaced
      obtain ⟨spec, wanted, same⟩ := Ascending.contains_iff.mp contained
      refine ⟨spec, ⟨listed _ _ contained, accepting, wanted, ?_⟩, same⟩
      rwa [same, Ledger.owns_iff_of_get? (Ledger.mem_entries_iff.mp member)]
    · intro injected
      obtain ⟨spec, ⟨_, accepting, wanted, _⟩, same⟩ := injected
      exact ⟨accepting, same ▸ Ascending.contains_of_mem wanted⟩
  · intro other
    obtain ⟨handle, here⟩ := left entry.place
    rw [orphaned, Ledger.mem_entries_iff_at?, here,
      Reconciliation.other_leaves other, ← Ledger.mem_entries_iff_at?]
    refine and_congr_right fun member => ?_
    simp only [member, ne_eq, other, not_false_eq_true, true_and]
    rfl

end Accounts

theorem pass_reconciled {combinator : Combinator} {ledger : Ledger}
    {host : MemoryHost} {tick : UInt64} {report : PassReport}
    {after : Combinator} {later : Ledger} {asked : MemoryHost}
    (passed : combinator.pass tick ledger host = (report, after, later, asked))
    {desired : SpecSet} {outcome : ReconcileReport}
    (wanted : report.desired = some desired)
    (reconciled : report.reconciliation = some outcome) :
    reconcile combinator.id (combinator.wiredOr (host.wiring combinator.id))
      desired tick ledger
      host = (outcome, later, asked) := by
  by_cases quiet : combinator.Quiet tick (host.channels combinator.id)
    (host.wiring combinator.id)
  · rw [pass_eq_of_quiet host.answers quiet] at passed
    cases passed
    cases wanted
  · rw [pass_eq_of_not_quiet host.answers quiet] at passed
    cases passed
    cases wanted
    cases reconciled
    rfl

/-- In a pass that reconciles, whatever becomes of its edits, everything that a
combinator has and should not have, or should have and does not, is accounted
for.  The report lists the wired targets and then the others on which it had
something.  A combinator has nothing on a target that is gone, and what it had
on one that cannot hold sections.  On the others its sections differ from those
that are due by the reported failures: what is too much by removals, and what is
missing by additions.  Other combinators lose the entries that are reported as
displaced, each to a section that was added in its place, and nothing else. -/
theorem differences_reported {combinator : Combinator} {ledger : Ledger}
    {host : MemoryHost} {tick : UInt64}
    (cached : ∀ targets, combinator.wired = some targets → targets.Nodup)
    (once : (host.wiring combinator.id).Nodup) {report : PassReport}
    {after : Combinator} {later : Ledger} {asked : MemoryHost}
    (passed : combinator.pass tick ledger host = (report, after, later, asked))
    {desired : SpecSet} {outcome : ReconcileReport}
    (wanted : report.desired = some desired)
    (reconciled : report.reconciliation = some outcome) :
    let id := combinator.id
    let wired := combinator.wiredOr (host.wiring id)
    (∃ others : TargetSet,
      outcome.targets.map TargetReport.target = wired ++ others.toList ∧
      (outcome.targets.map TargetReport.target).Nodup ∧
      ∀ target, target ∈ others.toList ↔
        target ∉ wired ∧ ledger.ownedSpecs id target ≠ .empty) ∧
    (∀ target,
      (host.targetExists target = false → later.ownedSpecs id target = .empty) ∧
      (host.targetExists target = true → host.supportsSections target = false →
        ∀ entry, entry.target = target →
          (entry ∈ later.entries ↔ entry ∈ ledger.entries)) ∧
      (host.supportsSections target = true →
        ((later.ownedSpecs id target).difference
          (due wired desired target)).toList =
            outcome.failed .remove target ∧
        ((due wired desired target).difference
          (later.ownedSpecs id target)).toList =
            outcome.failed .add target)) ∧
    (∀ entry, entry.owner ≠ id →
      (entry ∈ later.entries ↔ entry ∈ ledger.entries ∧
        entry ∉ outcome.orphaned)) ∧
    ∀ entry, entry ∈ outcome.orphaned ↔ entry ∈ ledger.entries ∧
      entry.owner ≠ id ∧
      ∃ spec, (entry.target, spec) ∈ outcome.injected ∧
        spec.key = entry.spec.key := by
  intro id wired
  have wiredOnce : wired.Nodup := by
    cases known : combinator.wired with
    | none => simpa [wired, wiredOr, known] using once
    | some targets => simpa [wired, wiredOr, known] using cached targets known
  have ran := pass_reconciled passed wanted reconciled
  have reports := reconcile_reports wiredOnce id desired tick ledger host
  have left := at?_reconcile id wired desired tick ledger host
  rw [ran] at reports left
  have named : outcome.targets.map TargetReport.target =
      wired ++ (unwired ledger id wired).toList := by
    rw [reports, List.map_map]
    simp [Function.comp_def]
  refine ⟨⟨unwired ledger id wired, named, ?_, ?_⟩, ?_, ?_, ?_⟩
  · rw [named]
    exact reported_targets wiredOnce
  · intro target
    rw [mem_unwired, Ne, Ledger.ownedSpecs_eq_empty_iff, not_forall_not]
  · intro target
    refine ⟨?_, ?_, reconcile_differences wiredOnce ran⟩
    · intro gone
      apply Ledger.ownedSpecs_eq_empty_iff.mpr
      intro key owns
      obtain ⟨handle, here⟩ := left ⟨target, key⟩
      rw [Ledger.owns_iff_at?, here, MemoryHost.access_of_gone gone,
        Reconciliation.owns_leaves_missing] at owns
      cases owns
    · intro there bare entry onTarget
      obtain ⟨handle, here⟩ := left entry.place
      have plain : host.access entry.place.target = .plain := by
        show host.access entry.target = .plain
        rw [onTarget]
        exact MemoryHost.access_of_bare there bare
      rw [Ledger.mem_entries_iff_at?, Ledger.mem_entries_iff_at?, here, plain]
      rfl
  · intro entry other
    exact (reconcile_others wiredOnce ran).2 other
  · intro entry
    exact (reconcile_others wiredOnce ran).1

/-- A second section, by the side of iron. -/
def copper : SectionSpec := { World.iron with name := "copper" }

/-- Four wired targets, of which one accepts edits, one refuses them, one cannot
hold sections and one is missing, and two more that are not wired. -/
def troubledHost : MemoryHost :=
  [.addTarget ⟨1⟩, .addTarget ⟨2⟩, .addPlainTarget ⟨3⟩, .addTarget ⟨5⟩,
    .addTarget ⟨6⟩, .connect ⟨7⟩ ⟨1⟩, .connect ⟨7⟩ ⟨2⟩, .connect ⟨7⟩ ⟨3⟩,
    .connect ⟨7⟩ ⟨4⟩, .reject ⟨2⟩ "sealed",
    .reject ⟨6⟩ "sealed"].foldl HostChange.apply .empty

/-- What is tracked there for the combinator, and the iron of another one. -/
def troubledLedger : Ledger :=
  .ofEntries [⟨⟨1⟩, World.iron, ⟨8⟩, ⟨40⟩, 1⟩, ⟨⟨2⟩, copper, ⟨7⟩, ⟨41⟩, 1⟩,
    ⟨⟨3⟩, copper, ⟨7⟩, ⟨42⟩, 1⟩, ⟨⟨4⟩, World.iron, ⟨7⟩, ⟨43⟩, 1⟩,
    ⟨⟨5⟩, World.iron, ⟨7⟩, ⟨44⟩, 1⟩, ⟨⟨6⟩, copper, ⟨7⟩, ⟨45⟩, 1⟩]

/-- What the report says on each of the six targets. -/
def troubledOutcome : ReconcileReport :=
  ⟨[⟨⟨1⟩, .applied, [], [World.iron], [], [⟨⟨1⟩, World.iron, ⟨8⟩, ⟨40⟩, 1⟩]⟩,
    ⟨⟨2⟩, .applied, [], [],
      [⟨.remove, copper, .rejected ⟨2⟩ "sealed"⟩,
        ⟨.add, World.iron, .rejected ⟨2⟩ "sealed"⟩], []⟩,
    .without ⟨3⟩ .unsupported, .without ⟨4⟩ .vanished,
    ⟨⟨5⟩, .applied, [World.iron], [], [], []⟩,
    ⟨⟨6⟩, .applied, [], [], [⟨.remove, copper, .rejected ⟨6⟩ "sealed"⟩], []⟩]⟩

theorem differences_reported_troubled :
    let combinator := { empty ⟨7⟩ with rules := [.fresh ⟨0⟩ World.ironRule] }
    let (report, _, later, _) := combinator.pass 9 troubledLedger troubledHost
    report.reconciliation = some troubledOutcome ∧
      later.ownedSpecs ⟨7⟩ ⟨4⟩ = .empty ∧
      ((later.ownedSpecs ⟨7⟩ ⟨2⟩).difference (.ofList [World.iron])).toList =
        [copper] ∧
      ⟨⟨1⟩, World.iron, ⟨8⟩, ⟨40⟩, 1⟩ ∉ later.entries := by
  intro combinator
  have reconciled :
      (combinator.pass 9 troubledLedger troubledHost).1.reconciliation =
        some troubledOutcome := by decide +kernel
  have wanted : (combinator.pass 9 troubledLedger troubledHost).1.desired =
      some (.ofList [World.iron]) := by decide +kernel
  have cached : ∀ targets, combinator.wired = some targets → targets.Nodup := by
    rintro targets ⟨⟩
  have once : (troubledHost.wiring combinator.id).Nodup := by decide +kernel
  rcases ran : combinator.pass 9 troubledLedger troubledHost with
    ⟨report, after, later, asked⟩
  rw [ran] at reconciled wanted
  obtain ⟨_, onTargets, others, _⟩ :=
    differences_reported cached once ran wanted reconciled
  refine ⟨reconciled, (onTargets ⟨4⟩).1 (by decide +kernel), ?_, ?_⟩
  · exact ((onTargets ⟨2⟩).2.2 (by decide +kernel)).1.trans (by decide +kernel)
  · intro kept
    exact ((others _ (by decide)).mp kept).2 (by decide +kernel)

end Combinator

end CircuitSections
