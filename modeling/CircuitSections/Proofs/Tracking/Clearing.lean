import CircuitSections.Proofs.Host.Contents
import CircuitSections.Proofs.Tracking.Outcome

/-!
# Clearing targets

Where nothing is desired, reconciliation removes what an owner has, as far as
the targets take edits.  What that comes to is known for the whole ledger and
the whole host at once (`targets_clear`): it matters neither in which order the
targets are visited, nor when, nor which others are visited on which the owner
has nothing.
-/

namespace CircuitSections

/-! ### What is left -/

/-- Whether what is tracked on a target is given up when it is not desired. -/
def TargetAccess.yields : TargetAccess → Bool
  | .missing | .accepting => true
  | .plain | .refusing _ => false

/-- The ledger without what an owner has on targets that yield it. -/
def Ledger.cleared (ledger : Ledger) (host : MemoryHost)
    (owner : CombinatorId) : Ledger :=
  (ledger.drain fun entry =>
    entry.owner = owner && (host.access entry.target).yields).2

/-- The handles of what an owner has on a target. -/
def Ledger.handlesOn (ledger : Ledger) (owner : CombinatorId)
    (target : TargetId) :
    List SectionHandle :=
  (ledger.entriesFor target (ledger.ownedSpecs owner target).toList).map
    TrackedSection.handle

/-- The target without the sections under some handles, if it accepts edits. -/
def Target.without (handles : List SectionHandle) (state : Target) : Target :=
  if state.access = .accepting then
    { state with
      sections := state.sections.filter fun placed => placed.1 ∉ handles }
  else state

/-- The targets on which an owner has something are among those of a list, which
has none twice. -/
structure Ledger.CoveredBy (ledger : Ledger) (owner : CombinatorId)
    (list : List TargetId) :
    Prop where
  once : list.Nodup
  owned : ∀ {target key}, ledger.Owns owner target key → target ∈ list

/-- The host without the sections under the given handles, on the targets that
accept edits. -/
def MemoryHost.without (host : MemoryHost)
    (handles : TargetId → List SectionHandle) :
    MemoryHost :=
  { host with
    targets := fun target =>
      (host.targets target).map (.without (handles target)) }

theorem EditPlan.between_empty (owned : SpecSet) : between owned .empty =
    ⟨owned.toList, []⟩ :=
  congrArg (EditPlan.mk · []) (List.filter_eq_self.mpr fun _ _ => rfl)

namespace Ledger

variable {ledger other : Ledger} {host : MemoryHost} {owner : CombinatorId}
  {target : TargetId}

theorem ext_at? (same : ∀ place, ledger.at? place = other.at? place) :
    ledger = other := by
  have told : Function.Injective fun slot : LedgerSlot =>
      (slot.spec, slot.tracked) := by
    rintro ⟨_, _, _⟩ ⟨_, _, _⟩ ⟨⟩
    rfl
  have slots : ledger.slots = other.slots :=
    Ascending.ext_find? fun place => Option.map_injective told (same place)
  exact congrArg Ledger.mk slots

theorem at?_cleared (ledger : Ledger) (host : MemoryHost) (owner : CombinatorId)
    (place : SlotKey) :
    (ledger.cleared host owner).at? place =
      if ((ledger.at? place).any fun slot => slot.2.owner = owner) = true ∧
          (host.access place.target).yields = true then none
      else ledger.at? place := by
  have drained : (ledger.cleared host owner).at? place =
      (ledger.at? place).filter fun slot =>
        !(slot.2.owner = owner && (host.access slot.2.target).yields) := by
    simp only [at?, cleared, drain, Ascending.find?_filter, Option.filter_map]
    rfl
  rw [drained]
  cases there : ledger.at? place with
  | none => rfl
  | some slot =>
      have onTarget : slot.2.target = place.target :=
        congrArg SlotKey.target (place_of_at? there).2.1
      simp only [Option.filter_some, Option.any_some, onTarget,
        decide_eq_true_eq]
      by_cases gone : slot.2.owner = owner ∧
        (host.access place.target).yields = true
      · rw [if_pos gone]
        simp [gone]
      · rw [if_neg gone]
        simpa using gone

theorem mem_entries_cleared {entry : TrackedSection} :
    entry ∈ (ledger.cleared host owner).entries ↔ entry ∈ ledger.entries ∧
      ¬ (entry.owner = owner ∧ (host.access entry.target).yields = true) := by
  rw [cleared, mem_drain]
  simp

theorem handlesOn_congr
    (same : ∀ key, ledger.at? ⟨target, key⟩ = other.at? ⟨target, key⟩) :
    ledger.handlesOn owner target = other.handlesOn owner target := by
  have specs : ledger.ownedSpecs owner target = other.ownedSpecs owner target :=
    ownedSpecs_congr fun key => by rw [same]
  rw [handlesOn, handlesOn, specs]
  refine congrArg _ (entriesFor_congr fun spec _ => ?_)
  rw [get?_eq_at?, get?_eq_at?, same]

theorem mem_handlesOn {handle : SectionHandle} :
    handle ∈ ledger.handlesOn owner target ↔
      ∃ entry ∈ ledger.entries, entry.owner = owner ∧ entry.target = target ∧
        entry.handle = handle := by
  simp only [handlesOn, entriesFor, List.mem_map, List.mem_flatMap,
    Option.mem_toList]
  constructor
  · rintro ⟨entry, ⟨spec, owned, found⟩, rfl⟩
    obtain ⟨tracked, onTarget, _⟩ := get?_eq_some_iff.mp found
    obtain ⟨other, there, own⟩ := mem_ownedSpecs owned
    rw [get?_eq_at?, there] at found
    cases found
    exact ⟨other, tracked, own, onTarget, rfl⟩
  · rintro ⟨entry, tracked, own, rfl, rfl⟩
    have owns : ledger.Owns owner entry.target entry.spec.key :=
      ⟨entry, tracked, own, rfl⟩
    obtain ⟨spec, owned, same⟩ :=
      Ascending.contains_iff.mp (contains_ownedSpecs.mpr owns)
    exact ⟨entry, ⟨spec, owned, get?_eq_some_iff.mpr ⟨tracked, rfl, same.symm⟩⟩,
      rfl⟩

theorem handlesOn_eq_nil (nothing : ∀ key, ¬ ledger.Owns owner target key) :
    ledger.handlesOn owner target = [] := by
  rw [handlesOn, ownedSpecs_eq_empty_iff.mpr nothing]
  rfl

end Ledger

namespace Target

variable {state : Target} (handles : List SectionHandle)

theorem without_of_accepting (accepting : state.access = .accepting) :
    state.without handles =
      { state with
        sections := state.sections.filter fun placed => placed.1 ∉ handles } :=
  if_pos accepting

theorem without_of_ne (other : state.access ≠ .accepting) :
    state.without handles = state :=
  if_neg other

@[simp]
theorem access_without (state : Target) : (state.without handles).access =
    state.access := by
  unfold without
  split <;> rfl

theorem without_of_absent
    (absent : ∀ placed ∈ state.sections.toList, placed.1 ∉ handles) :
    state.without handles = state := by
  unfold without
  split
  · have all : state.sections.filter (fun placed => placed.1 ∉ handles) =
        state.sections :=
      Ascending.ext
        (List.filter_eq_self.mpr
          fun placed member => by simp [absent placed member])
    rw [all]
  · rfl

@[simp]
theorem without_nil (state : Target) : state.without [] = state :=
  state.without_of_absent [] fun _ _ => List.not_mem_nil

theorem without_append (more : List SectionHandle) (state : Target) :
    state.without (handles ++ more) = (state.without handles).without more := by
  by_cases accepting : state.access = .accepting
  · rw [without_of_accepting more ((access_without _ state).trans accepting),
      without_of_accepting _ accepting, without_of_accepting _ accepting]
    have sections :
        state.sections.filter (fun placed => placed.1 ∉ handles ++ more) =
          (state.sections.filter fun placed => placed.1 ∉ handles).filter
            fun placed => placed.1 ∉ more := by
      apply Ascending.ext
      simp only [Ascending.filter, List.filter_filter]
      refine List.filter_congr fun placed _ => ?_
      simp [Bool.and_comm]
    rw [sections]
  · rw [without_of_ne more fun same =>
      accepting ((access_without _ state).symm.trans same),
      without_of_ne _ accepting, without_of_ne _ accepting]

end Target

namespace MemoryHost

variable {host : MemoryHost} {target : TargetId}

theorem without_eq_self {handles : TargetId → List SectionHandle}
    (kept : ∀ target state, host.targets target = some state →
      state.without (handles target) = state) :
      host.without handles = host := by
  have targets :
      (fun target => (host.targets target).map (.without (handles target))) =
        host.targets := by
    funext target
    cases found : host.targets target with
    | none => rfl
    | some state => exact congrArg some (kept target state found)
  rw [without, targets]

theorem without_without (host : MemoryHost)
    (handles more : TargetId → List SectionHandle) :
    (host.without handles).without more =
      host.without fun target => handles target ++ more target := by
  refine congrArg (fun targets => { host with targets })
    (funext fun target => ?_)
  show ((host.targets target).map _).map _ = _
  rw [Option.map_map]
  exact Option.map_congr fun state _ => (state.without_append _ _).symm

theorem without_replaceAt_eq_self {handles : List SectionHandle}
    (kept : ∀ state, host.targets target = some state →
      state.without handles = state) :
    host.without (replaceAt (fun _ => []) target handles) = host := by
  apply without_eq_self
  intro other state found
  unfold replaceAt
  split
  next same => exact kept state (same ▸ found)
  · exact state.without_nil

theorem removeSection_eq (accepting : host.access target = .accepting)
    (handle : SectionHandle) :
    (host.removeSection target handle).2 =
      host.without (replaceAt (fun _ => []) target [handle]) := by
  obtain ⟨state, editable, found⟩ :=
    (access_eq_accepting_iff.mp accepting).editable
  have accepts : state.access = .accepting :=
    (access_of_some found).symm.trans accepting
  simp only [removeSection, editable]
  split
  · have erased : state.sections.erase handle =
        state.sections.filter fun placed => placed.1 ∉ [handle] := by
      apply Ascending.ext
      refine List.filter_congr fun placed _ => ?_
      rw [Bool.eq_iff_iff]
      simp
    refine congrArg (fun targets => { host with targets })
      (funext fun other => ?_)
    unfold replaceAt
    split
    next same =>
      rw [same, found, Option.map_some, Target.without_of_accepting _ accepts,
        erased]
    · cases host.targets other <;> simp
  next absent =>
      refine (without_replaceAt_eq_self ?_).symm
      intro other same
      cases found.symm.trans same
      apply Target.without_of_absent
      rintro placed member listed
      obtain rfl := List.mem_singleton.mp listed
      exact absent (Ascending.contains_of_mem member)

theorem removeAll_eq (accepting : host.access target = .accepting)
    (handles : List SectionHandle) :
    host.removeAll target handles =
      host.without (replaceAt (fun _ => []) target handles) := by
  induction handles generalizing host with
  | nil =>
      exact (without_replaceAt_eq_self fun state _ => state.without_nil).symm
  | cons handle rest ih =>
      have still :=
        (access_removeSection host target handle target).trans accepting
      refine (ih still).trans ?_
      rw [removeSection_eq accepting, without_without]
      refine congrArg host.without (funext fun other => ?_)
      unfold replaceAt
      split <;> rfl

theorem sublist_without (host : MemoryHost)
    (handles : TargetId → List SectionHandle) (target : TargetId) :
    ((host.without handles).sectionList target).Sublist
      (host.sectionList target) := by
  unfold sectionList without
  dsimp only
  cases host.targets target with
  | none => exact .slnil
  | some state =>
      show (Target.without _ state).sections.toList.Sublist
        state.sections.toList
      unfold Target.without
      split
      · exact List.filter_sublist
      · exact .refl _

theorem mem_sectionList_without {handles : TargetId → List SectionHandle}
    {placed : SectionHandle × SectionSpec} :
    placed ∈ (host.without handles).sectionList target ↔
      placed ∈ host.sectionList target ∧
        ¬ (host.Accepts target ∧ placed.1 ∈ handles target) := by
  rw [← access_eq_accepting_iff]
  unfold sectionList without access
  dsimp only
  cases host.targets target with
  | none => simp
  | some state =>
      by_cases accepting : state.access = .accepting
      · simp [Target.without_of_accepting _ accepting, accepting,
          Ascending.filter]
      · simp [Target.without_of_ne _ accepting, accepting]

end MemoryHost

namespace Reconciliation

variable {host : MemoryHost} {ledger : Ledger} {owner : CombinatorId}

theorem hostOn_clear (host : MemoryHost) (ledger : Ledger)
    (owner : CombinatorId) (target : TargetId) :
    hostOn host ledger owner .empty target =
      host.without
        (replaceAt (fun _ => []) target (ledger.handlesOn owner target)) := by
  unfold hostOn
  dsimp only
  split
  next accepting =>
    rw [EditPlan.between_empty]
    exact MemoryHost.removeAll_eq accepting _
  next other =>
    refine (MemoryHost.without_replaceAt_eq_self fun state found => ?_).symm
    exact state.without_of_ne _ fun same =>
      other ((MemoryHost.access_of_some found).trans same)

theorem leaves_clear (access : TargetAccess) (owner : CombinatorId)
    (tick : UInt64) (handle : SectionHandle) (place : SlotKey)
    (there : Option (SectionSpec × TrackedSection)) :
    leaves access owner .empty tick handle place there =
      if (there.any fun slot => slot.2.owner = owner) = true ∧
        access.yields = true then none
      else there := by
  cases access <;>
    cases own : there.any fun slot => slot.2.owner = owner <;>
      simp [leaves, own, TargetAccess.yields, Ascending.find?_empty]

theorem targets_append (owner : CombinatorId) (desired : SpecSet)
    (tick : UInt64) (first second : List TargetId) (ledger : Ledger)
    (host : MemoryHost) :
    targets owner desired tick (first ++ second) ledger host =
      let (before, between, asked) :=
        targets owner desired tick first ledger host
      let (after, later, final) :=
        targets owner desired tick second between asked
      (before ++ after, later, final) := by
  induction first generalizing ledger host with
  | nil => rfl
  | cons target rest ih =>
      simp only [List.cons_append, targets, ih]
      rfl

/-- Visited one after the other, targets lose what an owner has on them. -/
theorem host_targets_clear {list : List TargetId} (once : list.Nodup)
    (owner : CombinatorId) (tick : UInt64) (ledger : Ledger)
    (host : MemoryHost) :
    (targets owner .empty tick list ledger host).2.2 =
      host.without fun target =>
        if target ∈ list then ledger.handlesOn owner target else [] := by
  induction list generalizing ledger host with
  | nil =>
      exact (MemoryHost.without_eq_self fun _ state _ => state.without_nil).symm
  | cons first rest ih =>
      obtain ⟨apart, restOnce⟩ := List.nodup_cons.mp once
      have here := at?_ledgerOn (host.access first) ledger owner .empty tick
        first host.nextHandle
      simp only [targets, target_eq]
      rw [ih restOnce, hostOn_clear, MemoryHost.without_without]
      refine congrArg host.without (funext fun target => ?_)
      by_cases same : target = first
      · subst same
        simp [replaceAt, apart]
      · -- The first target changes nothing that is tracked on this one.
        have kept : Ledger.handlesOn _ owner target =
            ledger.handlesOn owner target :=
          Ledger.handlesOn_congr fun key => by
            obtain ⟨_, left⟩ := here ⟨target, key⟩
            rw [left, if_neg same]
        simp [replaceAt, same, kept]

/-- Whatever an owner has is cleared once all targets on which it has something
were visited. -/
theorem targets_clear {list : List TargetId}
    (covered : ledger.CoveredBy owner list) (tick : UInt64)
    (host : MemoryHost) :
    (targets owner .empty tick list ledger host).2 =
      (ledger.cleared host owner, host.without (ledger.handlesOn owner)) := by
  apply Prod.ext
  · apply Ledger.ext_at?
    intro place
    obtain ⟨handle, left⟩ :=
      at?_targets owner .empty tick list ledger host place
    rw [left, Ledger.at?_cleared, leaves_clear]
    by_cases listed : place.target ∈ list
    · rw [if_pos listed]
    · have foreign : ¬ ledger.Owns owner place.target place.spec :=
        fun owns => listed (covered.owned owns)
      rw [Ledger.owns_iff_at?] at foreign
      rw [if_neg listed, if_neg fun own => foreign own.1]
  · rw [host_targets_clear covered.once]
    refine congrArg host.without (funext fun target => ?_)
    split
    · rfl
    next unlisted =>
        exact (Ledger.handlesOn_eq_nil fun key owns =>
          unlisted (covered.owned owns)).symm

end Reconciliation

/-! ### What the reports tell -/

theorem ReconcileReport.mem_failures {report : ReconcileReport}
    {list : List TargetId} {on : TargetId → TargetReport}
    (reports : report.targets = list.map on)
    (named : ∀ target, (on target).target = target) {target : TargetId}
    {failure : SectionFailure} :
    (target, failure) ∈ report.failures ↔ target ∈ list ∧
      failure ∈ (on target).failures := by
  simp [failures, reports, List.mem_flatMap, named]

/-- The report tells that the removal of what stands at a place was rejected. -/
def ReconcileReport.RejectsRemoval (report : ReconcileReport)
    (place : SlotKey) : Prop :=
  ∃ spec reason, spec.key = place.spec ∧
    (place.target, ⟨.remove, spec, .rejected place.target reason⟩) ∈
      report.failures

namespace Reconciliation

variable {host : MemoryHost} {ledger : Ledger} {owner : CombinatorId}

section Report

variable {access : TargetAccess} {target : TargetId}

theorem reportOn_clear :
    (reportOn access ledger owner .empty target).injected = [] ∧
      (reportOn access ledger owner .empty target).orphaned = [] := by
  cases access <;> exact ⟨rfl, rfl⟩

theorem reportOn_of_nothing
    (nothing : ledger.ownedSpecs owner target = .empty) :
    (reportOn access ledger owner .empty target).removed = [] ∧
      (reportOn access ledger owner .empty target).failures = [] := by
  unfold reportOn
  rw [nothing]
  cases access <;> exact ⟨rfl, rfl⟩

theorem mem_failures_reportOn {key : SpecKey} :
    (∃ spec reason, spec.key = key ∧ ⟨.remove, spec, .rejected target reason⟩ ∈
        (reportOn access ledger owner .empty target).failures) ↔
        ledger.Owns owner target key ∧ ∃ reason, access = .refusing reason := by
  rw [← Ledger.contains_ownedSpecs, Ascending.contains_iff]
  cases access with
  | refusing reason =>
      have failures :
          (reportOn (.refusing reason) ledger owner .empty target).failures =
            (ledger.ownedSpecs owner target).toList.map
              (⟨.remove, ·, .rejected target reason⟩) := by
        simp only [reportOn, EditPlan.between_empty, List.map_nil,
          List.append_nil]
      rw [failures]
      constructor
      · rintro ⟨spec, _, same, listed⟩
        obtain ⟨_, owned, failure⟩ := List.mem_map.mp listed
        cases failure
        exact ⟨⟨spec, owned, same⟩, reason, rfl⟩
      · rintro ⟨⟨spec, owned, same⟩, _⟩
        exact ⟨spec, reason, same, List.mem_map.mpr ⟨spec, owned, rfl⟩⟩
  | missing => simp [reportOn, TargetReport.without]
  | plain => simp [reportOn, TargetReport.without]
  | accepting => simp [reportOn, TargetReport.without]

end Report

/-- What comes of clearing the targets of a list: a report on each as if it
stood alone, and a ledger and a host without what the owner had, as far as it
could be removed. -/
structure Clears (ledger : Ledger) (host : MemoryHost) (owner : CombinatorId)
    (list : List TargetId) (report : ReconcileReport) (later : Ledger)
    (asked : MemoryHost) :
    Prop where
  covered : ledger.CoveredBy owner list
  reports : report.targets =
    list.map fun target =>
      reportOn (host.access target) ledger owner .empty target
  ledger_eq : later = ledger.cleared host owner
  host_eq : asked = host.without (ledger.handlesOn owner)

namespace Clears

variable {list : List TargetId} {report : ReconcileReport} {later : Ledger}
  {asked : MemoryHost}

theorem of_targets (covered : ledger.CoveredBy owner list) {tick : UInt64}
    (ran : targets owner .empty tick list ledger host =
      (report, later, asked)) :
    Clears ledger host owner list report later asked := by
  have reports := targets_reports covered.once owner .empty tick ledger host
  have left := targets_clear covered tick host
  rw [ran] at reports left
  exact ⟨covered, reports, congrArg Prod.fst left, congrArg Prod.snd left⟩

variable (cleared : Clears ledger host owner list report later asked)
  {entry : TrackedSection}

include cleared

theorem adds_nothing {told : TargetReport} (listed : told ∈ report.targets) :
    told.injected = [] ∧ told.orphaned = [] := by
  rw [cleared.reports] at listed
  obtain ⟨target, _, rfl⟩ := List.mem_map.mp listed
  exact reportOn_clear

theorem nextHandle : asked.nextHandle = host.nextHandle := by
  rw [cleared.host_eq]
  rfl

theorem sublist (target : TargetId) :
    (asked.sectionList target).Sublist (host.sectionList target) := by
  rw [cleared.host_eq]
  exact host.sublist_without _ target

/-- The sections that go are those of the owner on targets that accept edits. -/
theorem sections {target : TargetId} {placed : SectionHandle × SectionSpec} :
    placed ∈ asked.sectionList target ↔ placed ∈ host.sectionList target ∧
      ¬ (host.Accepts target ∧ ∃ entry ∈ ledger.entries, entry.owner = owner ∧
        entry.target = target ∧ entry.handle = placed.1) := by
  rw [cleared.host_eq, MemoryHost.mem_sectionList_without, Ledger.mem_handlesOn]

/-- An owner keeps what is on targets that cannot hold sections, and what was
not removed since the removal was rejected. -/
theorem own_entries (own : entry.owner = owner) :
    entry ∈ later.entries ↔ entry ∈ ledger.entries ∧
      host.targetExists entry.target = true ∧
      (host.supportsSections entry.target = false ∨
        report.RejectsRemoval entry.place) := by
  rw [cleared.ledger_eq, Ledger.mem_entries_cleared]
  refine and_congr_right fun tracked => ?_
  have owns : ledger.Owns owner entry.target entry.spec.key :=
    ⟨entry, tracked, own, rfl⟩
  have rejected : report.RejectsRemoval entry.place ↔
      ∃ reason, host.access entry.target = .refusing reason := by
    simp only [ReconcileReport.RejectsRemoval, TrackedSection.place,
      ReconcileReport.mem_failures cleared.reports fun _ => reportOn_target,
      cleared.covered.owned owns, true_and]
    exact mem_failures_reportOn.trans (and_iff_right owns)
  rw [rejected, MemoryHost.targetExists_iff, ← Bool.not_eq_true,
    MemoryHost.supportsSections_iff]
  cases access : host.access entry.target <;> simp [own, TargetAccess.yields]

theorem other_entries (other : entry.owner ≠ owner) :
    entry ∈ later.entries ↔ entry ∈ ledger.entries := by
  rw [cleared.ledger_eq, Ledger.mem_entries_cleared]
  exact and_iff_left fun own => other own.1

/-- Where a list has the targets of another one and some on which the owner has
nothing, so have the reports, up to order. -/
theorem reports_perm {fewer unused : List TargetId} {other : ReconcileReport}
    {otherLater : Ledger} {otherAsked : MemoryHost}
    (others : Clears ledger host owner fewer other otherLater otherAsked)
    (same : list.Perm (fewer ++ unused))
    (nothing : ∀ target ∈ unused, ledger.ownedSpecs owner target = .empty) :
    ∃ idle : List TargetReport, report.targets.Perm (other.targets ++ idle) ∧
      ∀ told ∈ idle, told.target ∈ unused ∧ told.removed = [] ∧
        told.injected = [] ∧
        told.failures = [] ∧ told.orphaned = [] := by
  let on := fun target =>
    reportOn (host.access target) ledger owner .empty target
  refine ⟨unused.map on, ?_, ?_⟩
  · rw [cleared.reports, others.reports, ← List.map_append]
    exact same.map on
  · intro told listed
    obtain ⟨target, among, rfl⟩ := List.mem_map.mp listed
    have added : (on target).injected = [] ∧ (on target).orphaned = [] :=
      reportOn_clear
    have edited : (on target).removed = [] ∧ (on target).failures = [] :=
      reportOn_of_nothing (nothing target among)
    have named : (on target).target = target := reportOn_target
    rw [named]
    exact ⟨among, edited.1, added.1, edited.2, added.2⟩

end Clears

end Reconciliation

end CircuitSections
