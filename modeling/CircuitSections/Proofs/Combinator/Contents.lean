import CircuitSections.Proofs.Combinator.Outcome
import CircuitSections.Proofs.Host.Contents

/-!
# What a pass does to the sections

A report tells it all: the sections of a pass that are gone are those under the
handles of the entries that are listed as removed, and those that are new are
the ones listed as added.
-/

namespace CircuitSections

/-- The handles of the entries that a report lists as removed from its
target. -/
def TargetReport.gone (report : TargetReport) (ledger : Ledger) :
    List (TargetId × SectionHandle) :=
  (ledger.entriesFor report.target report.removed).map fun entry =>
    (report.target, entry.handle)

/-- The handles of the removed entries, with their targets. -/
def ReconcileReport.gone (report : ReconcileReport) (ledger : Ledger) :
    List (TargetId × SectionHandle) :=
  report.targets.flatMap fun target => target.gone ledger

namespace PassReport

/-- The handles of the removed entries, none unless the pass reconciled. -/
def gone (report : PassReport) (ledger : Ledger) :
    List (TargetId × SectionHandle) :=
  match report.reconciliation with
  | some reconciliation => reconciliation.gone ledger
  | none => []

/-- The sections that were added, none unless the pass reconciled. -/
def injected (report : PassReport) : List (TargetId × SectionSpec) :=
  match report.reconciliation with
  | some reconciliation => reconciliation.injected
  | none => []

end PassReport

namespace ReconcileReport

variable (first second : ReconcileReport)

@[simp]
theorem injected_append : (first ++ second).injected =
    first.injected ++ second.injected :=
  List.flatMap_append

@[simp]
theorem gone_append (ledger : Ledger) :
    (first ++ second).gone ledger = first.gone ledger ++ second.gone ledger :=
  List.flatMap_append

theorem injected_cons (report : TargetReport) (rest : List TargetReport) :
    (⟨report :: rest⟩ : ReconcileReport).injected =
      report.injected.map (report.target, ·) ++
        (⟨rest⟩ : ReconcileReport).injected :=
  List.flatMap_cons

theorem gone_cons (report : TargetReport) (rest : List TargetReport)
    (ledger : Ledger) :
    (⟨report :: rest⟩ : ReconcileReport).gone ledger =
      report.gone ledger ++ (⟨rest⟩ : ReconcileReport).gone ledger :=
  List.flatMap_cons

end ReconcileReport

/-- The handles under which a ledger tracks something on given targets were
given out. -/
def Ledger.Issued (ledger : Ledger) (host : MemoryHost)
    (list : List TargetId) : Prop :=
  ∀ entry ∈ ledger.entries, entry.target ∈ list → entry.handle.number.toNat <
    host.nextHandle.toNat

theorem Ledger.Issued.mono {ledger : Ledger} {host : MemoryHost}
    {list : List TargetId} (issued : ledger.Issued host list)
    {fewer : List TargetId} (listed : ∀ target ∈ fewer, target ∈ list) :
    ledger.Issued host fewer :=
  fun entry tracked member => issued entry tracked (listed entry.target member)

theorem Ledger.Issued.of_at? {ledger other : Ledger} {host asked : MemoryHost}
    {list : List TargetId} (issued : ledger.Issued host list)
    (same : ∀ place : SlotKey, place.target ∈ list → other.at? place =
      ledger.at? place)
    (later : host.nextHandle.toNat ≤ asked.nextHandle.toNat) :
    other.Issued asked list := by
  intro entry member listed
  have tracked : entry ∈ ledger.entries := by
    rw [mem_entries_iff_at?, ← same entry.place listed, ← mem_entries_iff_at?]
    exact member
  exact Nat.lt_of_lt_of_le (issued entry tracked listed) later

/-! ### Handles that go -/

theorem TargetReport.mem_gone {report : TargetReport} {ledger : Ledger}
    {pair : TargetId × SectionHandle} (member : pair ∈ report.gone ledger) :
    ∃ entry ∈ ledger.entries,
      entry.target = report.target ∧ pair = (entry.target, entry.handle) := by
  obtain ⟨entry, listed, rfl⟩ := List.mem_map.mp member
  obtain ⟨spec, _, found⟩ := List.mem_flatMap.mp listed
  obtain ⟨tracked, onTarget, _⟩ :=
    Ledger.get?_eq_some_iff.mp (Option.mem_toList.mp found)
  exact ⟨entry, tracked, onTarget, by rw [onTarget]⟩

theorem TargetReport.gone_congr {report : TargetReport} {ledger other : Ledger}
    (same : ∀ spec ∈ report.removed,
      ledger.get? report.target spec = other.get? report.target spec) :
    report.gone ledger = report.gone other := by
  rw [gone, gone, Ledger.entriesFor_congr same]

theorem ReconcileReport.mem_gone {report : ReconcileReport} {ledger : Ledger}
    {pair : TargetId × SectionHandle} (member : pair ∈ report.gone ledger) :
    ∃ entry ∈ ledger.entries, entry.target ∈
      report.targets.map TargetReport.target ∧
      pair = (entry.target, entry.handle) := by
  obtain ⟨target, listed, there⟩ := List.mem_flatMap.mp member
  obtain ⟨entry, tracked, onTarget, same⟩ := target.mem_gone there
  exact ⟨entry, tracked, List.mem_map.mpr ⟨target, listed, onTarget.symm⟩, same⟩

theorem PassReport.mem_gone {report : PassReport} {ledger : Ledger}
    {pair : TargetId × SectionHandle} (member : pair ∈ report.gone ledger) :
    ∃ entry ∈ ledger.entries, pair = (entry.target, entry.handle) := by
  unfold gone at member
  split at member
  · obtain ⟨entry, tracked, _, same⟩ := ReconcileReport.mem_gone member
    exact ⟨entry, tracked, same⟩
  · cases member

theorem ReconcileReport.gone_congr {report : ReconcileReport}
    {ledger other : Ledger}
    (same : ∀ target ∈ report.targets, ∀ spec ∈ target.removed,
      ledger.get? target.target spec = other.get? target.target spec) :
    report.gone ledger = report.gone other := by
  exact List.flatMap_congr fun target member =>
    TargetReport.gone_congr (same target member)

theorem ReconcileReport.gone_issued {report : ReconcileReport} {ledger : Ledger}
    {host : MemoryHost} {list : List TargetId}
    (issued : ledger.Issued host list)
    (named : report.targets.map TargetReport.target = list) :
    ∀ pair ∈ report.gone ledger, pair.2.number.toNat <
      host.nextHandle.toNat := by
  intro pair member
  obtain ⟨entry, tracked, onTarget, rfl⟩ := report.mem_gone member
  exact issued entry tracked (named ▸ onTarget)

namespace Reconciliation

theorem edited_hostOn {owner : CombinatorId} {desired : SpecSet}
    {host : MemoryHost} {ledger : Ledger} {target : TargetId}
    (below : host.Below) (issued : ledger.Issued host [target])
    (room : host.nextHandle.toNat +
      (reportOn (host.access target) ledger owner desired
        target).injected.length < UInt64.size) :
    let report := reportOn (host.access target) ledger owner desired target
    host.Edited (hostOn host ledger owner desired target) (report.gone ledger)
      (report.injected.map (target, ·)) := by
  intro report
  have nothing (outcome : TargetOutcome) :
      (TargetReport.without target outcome).gone ledger = [] := rfl
  cases access : host.access target with
  | missing =>
      simp only [report, hostOn, reportOn, access, nothing]
      exact .refl host
  | plain =>
      simp only [report, hostOn, reportOn, access, nothing]
      exact .refl host
  | refusing reason =>
      simp only [report, hostOn, reportOn, access]
      exact .refl host
  | accepting =>
      let plan := EditPlan.between (ledger.ownedSpecs owner target) desired
      let handles :=
        (ledger.entriesFor target plan.remove).map TrackedSection.handle
      have gone : report.gone ledger = handles.map (target, ·) := by
        simp [report, reportOn, access, TargetReport.gone,
          TargetReport.without, handles, plan]
      have old : ∀ handle ∈ handles, handle.number.toNat <
          host.nextHandle.toNat := by
        intro handle member
        have pair : (target, handle) ∈ report.gone ledger := by
          rw [gone]
          exact List.mem_map.mpr ⟨handle, member, rfl⟩
        obtain ⟨entry, tracked, _, same⟩ := TargetReport.mem_gone pair
        obtain ⟨onTarget, rfl⟩ := Prod.mk.inj same
        exact issued entry tracked (List.mem_singleton.mpr onTarget.symm)
      have removals := MemoryHost.edited_removeAll access handles old
      have still : (host.removeAll target handles).access target = .accepting :=
        (removals.access target).trans access
      have injected : report.injected = plan.inject := by
        simp [report, reportOn, access, plan]
      have additions :=
        MemoryHost.edited_addAll still (removals.below below) plan.inject (by
          rw [MemoryHost.nextHandle_removeAll, ← injected]
          exact room)
      have both := removals.trans additions (by simp)
      rw [gone, injected]
      simpa [hostOn, access] using both

theorem gone_targets_congr (owner : CombinatorId) (desired : SpecSet)
    (tick : UInt64) {list : List TargetId} (start : Ledger) (host : MemoryHost)
    {ledger other : Ledger}
    (same : ∀ place : SlotKey, place.target ∈ list → ledger.at? place =
      other.at? place) :
    (targets owner desired tick list start host).1.gone ledger =
      (targets owner desired tick list start host).1.gone other := by
  apply ReconcileReport.gone_congr
  intro report member spec _
  have listed : report.target ∈ list := by
    rw [← map_target_targets owner desired tick list start host]
    exact List.mem_map.mpr ⟨report, member, rfl⟩
  rw [Ledger.get?_eq_at?, Ledger.get?_eq_at?,
    same ⟨report.target, spec.key⟩ listed]

theorem edited_targets (owner : CombinatorId) (desired : SpecSet)
    (tick : UInt64) {list : List TargetId} (once : list.Nodup) {ledger : Ledger}
    {host : MemoryHost} (below : host.Below) (issued : ledger.Issued host list)
    (room : host.nextHandle.toNat +
      (targets owner desired tick list ledger host).1.injected.length <
        UInt64.size) :
    host.Edited (targets owner desired tick list ledger host).2.2
      ((targets owner desired tick list ledger host).1.gone ledger)
      (targets owner desired tick list ledger host).1.injected := by
  induction list generalizing ledger host with
  | nil => exact .refl host
  | cons first rest ih =>
      obtain ⟨apart, restOnce⟩ := List.nodup_cons.mp once
      let next := ledgerOn (host.access first) ledger owner desired tick first
        host.nextHandle
      let asked := hostOn host ledger owner desired first
      have same (place : SlotKey) (listed : place.target ∈ rest) :
          next.at? place = ledger.at? place := by
        obtain ⟨_, left⟩ :=
          at?_ledgerOn (host.access first) ledger owner desired tick first
            host.nextHandle place
        rw [left, if_neg]
        exact fun here => apart (here ▸ listed)
      -- The first target leaves the places of the rest alone, so their handles
      -- are those of before.
      have restGone := gone_targets_congr owner desired tick next asked same
      simp only [targets, target_eq, ReconcileReport.injected_cons,
        ReconcileReport.gone_cons, reportOn_target, List.length_append,
        List.length_map] at room ⊢
      have head : host.Edited asked _ _ :=
        edited_hostOn below (issued.mono (by simp)) (by omega)
      have numbers := head.next
      rw [List.length_map] at numbers
      have old : ledger.Issued host rest := issued.mono (by simp +contextual)
      have restRoom : asked.nextHandle.toNat +
          (targets owner desired tick rest next asked).1.injected.length <
            UInt64.size := by
        rw [numbers, Nat.add_assoc]
        exact room
      have tail :=
        ih restOnce (head.below below) (old.of_at? same (by omega)) restRoom
      rw [restGone] at tail
      exact head.trans tail
        (ReconcileReport.gone_issued old (map_target_targets _ _ _ _ _ _))

end Reconciliation

namespace Combinator

theorem edited_reconcile {id : CombinatorId} {wired : List TargetId}
    (once : wired.Nodup) (desired : SpecSet) (tick : UInt64) {ledger : Ledger}
    {host : MemoryHost} (below : host.Below)
    (issued : ∀ list, ledger.Issued host list)
    (room : host.nextHandle.toNat +
      (reconcile id wired desired tick ledger host).1.injected.length <
        UInt64.size) :
    host.Edited (reconcile id wired desired tick ledger host).2.2
      ((reconcile id wired desired tick ledger host).1.gone ledger)
      (reconcile id wired desired tick ledger host).1.injected := by
  let between := (Reconciliation.targets id desired tick wired ledger host).2.1
  let asked := (Reconciliation.targets id desired tick wired ledger host).2.2
  let others := (unwired ledger id wired).toList
  have same (place : SlotKey) (listed : place.target ∈ others) :
      between.at? place = ledger.at? place :=
    Reconciliation.at?_targets_elsewhere id desired tick ledger host
      (mem_unwired.mp listed).1
  rw [reconcile_eq] at room ⊢
  simp only [ReconcileReport.injected_append, ReconcileReport.gone_append,
    List.length_append]
    at room ⊢
  have onWired : host.Edited asked _ _ :=
    Reconciliation.edited_targets id desired tick once below (issued wired)
      (by omega)
  have numbers := onWired.next
  have othersRoom : asked.nextHandle.toNat +
      (Reconciliation.targets id .empty tick others between
        asked).1.injected.length < UInt64.size := by
    rw [numbers, Nat.add_assoc]
    exact room
  have onOthers :=
    Reconciliation.edited_targets id .empty tick (unwired_nodup ledger id wired)
      (onWired.below below) ((issued others).of_at? same (by omega)) othersRoom
  rw [Reconciliation.gone_targets_congr id .empty tick between asked
    same] at onOthers
  exact onWired.trans onOthers
    (ReconcileReport.gone_issued (issued others)
      (Reconciliation.map_target_targets _ _ _ _ _ _))

/-- After a pass the sections are those of before, but for what the report
says. -/
theorem edited_pass {combinator : Combinator} {host : MemoryHost}
    (once : (combinator.wiredOr (host.wiring combinator.id)).Nodup)
    (tick : UInt64) (ledger : Ledger) (below : host.Below)
    (issued : ∀ list, ledger.Issued host list)
    (room : host.nextHandle.toNat +
      (combinator.pass tick ledger host).1.injected.length < UInt64.size) :
    host.Edited (combinator.pass tick ledger host).2.2.2
      ((combinator.pass tick ledger host).1.gone ledger)
      (combinator.pass tick ledger host).1.injected := by
  by_cases quiet : combinator.Quiet tick (host.channels combinator.id)
    (host.wiring combinator.id)
  · rw [pass_eq_of_quiet host.answers quiet]
    exact .refl host
  · rw [pass_eq_of_not_quiet host.answers quiet] at room ⊢
    dsimp only at room ⊢
    exact edited_reconcile once _ tick below issued room

end Combinator

/-! ### What a journal notes -/

def HostSection.pair (placed : HostSection) : TargetId × SectionSpec :=
  (placed.target, placed.spec)

namespace TargetWork

variable {σ : Type} [SectionEditor σ] {start : List (TargetId × SectionSpec)}

/-- The journal has noted the sections that the report lists as added, and
nothing else. -/
def Noted (start : List (TargetId × SectionSpec))
    (work : TargetWork (Journal σ)) : Prop :=
  work.host.added.map HostSection.pair =
    start ++ work.report.injected.map (work.report.target, ·)

theorem Noted.remove {work : TargetWork (Journal σ)} (noted : work.Noted start)
    (spec : SectionSpec) : (work.remove spec).Noted start := by
  unfold TargetWork.remove
  split
  · exact noted
  · simp only [SectionEditor.removeSection, Journal.pass]
    split <;> exact noted

theorem Noted.inject {work : TargetWork (Journal σ)} (noted : work.Noted start)
    (owner : CombinatorId) (tick : UInt64) (spec : SectionSpec) :
    (inject owner tick work spec).Noted start := by
  unfold Noted at noted
  simp only [TargetWork.inject, SectionEditor.addSection, Journal.pass]
  cases SectionEditor.addSection work.report.target spec work.host.host with
  | mk answer host =>
      cases answer with
      | ok handle =>
          simp [Noted, Journal.note, confirmInjection, noted, HostSection.pair]
      | error cause => exact noted

theorem Noted.removals {work : TargetWork (Journal σ)}
    (noted : work.Noted start) (specs : List SectionSpec) :
    (specs.foldl TargetWork.remove work).Noted start :=
  List.foldlRecOn specs _ noted fun _ before spec _ => Noted.remove before spec

theorem Noted.injections {work : TargetWork (Journal σ)}
    (noted : work.Noted start) (owner : CombinatorId) (tick : UInt64)
    (specs : List SectionSpec) :
    (specs.foldl (TargetWork.inject owner tick) work).Noted start :=
  List.foldlRecOn specs _ noted fun _ before spec _ =>
    Noted.inject before owner tick spec

end TargetWork

namespace Reconciliation

variable {σ : Type} [SectionEditor σ]

theorem target_noted (owner : CombinatorId) (desired : SpecSet) (tick : UInt64)
    (target : TargetId) (ledger : Ledger) (journal : Journal σ) :
    let (report, _, next) :=
      Reconciliation.target owner target desired tick ledger journal
    next.added.map HostSection.pair =
      journal.added.map HostSection.pair ++ report.injected.map
        (report.target, ·) := by
  obtain ⟨asked, alive, same⟩ :
    ∃ asked, SectionEditor.targetExists target journal =
      ((SectionEditor.targetExists target journal.host).1, asked) ∧
        asked.added = journal.added := ⟨_, rfl, rfl⟩
  obtain ⟨again, supported, still⟩ :
    ∃ again, SectionEditor.supportsSections target asked =
      ((SectionEditor.supportsSections target asked.host).1, again) ∧
        again.added = asked.added := ⟨_, rfl, rfl⟩
  simp only [Reconciliation.target, alive, supported]
  rw [← same]
  split
  · rw [← still]
    split
    · let work : TargetWork (Journal σ) :=
        ⟨ledger, again, .without target .applied⟩
      have noted : work.Noted (again.added.map HostSection.pair) :=
        (List.append_nil _).symm
      exact (noted.removals _).injections owner tick _
    · exact (List.append_nil _).symm
  · exact (List.append_nil _).symm

theorem targets_noted (owner : CombinatorId) (desired : SpecSet) (tick : UInt64)
    (list : List TargetId) (ledger : Ledger) (journal : Journal σ) :
    let (report, _, next) := targets owner desired tick list ledger journal
    next.added.map HostSection.pair =
      journal.added.map HostSection.pair ++ report.injected := by
  induction list generalizing ledger journal with
  | nil => exact (List.append_nil _).symm
  | cons first rest ih =>
      have head := target_noted owner desired tick first ledger journal
      rcases ran : target owner first desired tick ledger journal with
        ⟨report, after, next⟩
      simp only [targets, ran, ReconcileReport.injected_cons,
        ← List.append_assoc] at head ⊢
      rw [← head]
      exact ih after next

end Reconciliation

theorem Combinator.pass_noted (combinator : Combinator) (tick : UInt64)
    (ledger : Ledger) (journal : Journal MemoryHost) :
    let (report, _, _, after) := combinator.pass tick ledger journal
    after.added.map HostSection.pair =
      journal.added.map HostSection.pair ++ report.injected := by
  by_cases quiet : combinator.Quiet tick (journal.host.channels combinator.id)
      (journal.host.wiring combinator.id)
  · rw [pass_eq_of_quiet journal.answers quiet]
    exact (List.append_nil _).symm
  · rw [pass_eq_of_not_quiet journal.answers quiet]
    let id := combinator.id
    let wired := combinator.wiredOr (journal.host.wiring id)
    let desired := (combinator.stepped tick (journal.host.channels id)
      (journal.host.wiring id)).desired
    let done := Reconciliation.targets id desired tick wired ledger journal
    let others :=
      ((done.2.1.ownedTargets id).difference (TargetSet.ofList wired)).toList
    have onWired :=
      Reconciliation.targets_noted id desired tick wired ledger journal
    have onOthers :=
      Reconciliation.targets_noted id .empty tick others done.2.1 done.2.2
    refine onOthers.trans ?_
    show done.2.2.added.map HostSection.pair ++ _ =
      _ ++ (done.1 ++ _ : ReconcileReport).injected
    rw [ReconcileReport.injected_append, ← List.append_assoc, ← onWired]

theorem Engine.addedBy_pairs {engine : Engine} {id : CombinatorId}
    {combinator : Combinator} (host : MemoryHost) (tick : UInt64)
    (found : engine.combinator? id = some combinator) :
    (engine.addedBy host id tick).map HostSection.pair =
      (combinator.pass tick engine.ledger host).1.injected := by
  have noted := combinator.pass_noted tick engine.ledger (Journal.opened host)
  have shown : combinator.pass tick engine.ledger host = _ :=
    Journal.transparent.pass combinator tick engine.ledger (Journal.opened host)
  rw [shown, addedBy, evaluate_of_some found]
  exact noted

end CircuitSections
