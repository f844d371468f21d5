import CircuitSections.Proofs.Run.Independence
import Mathlib.Data.Set.Insert

/-!
# Refusals stay where they are

Two runs over the same targets may differ in how many sections they add, so the
next handle and the ledger drift apart as they go on.  What becomes of one
target is a matter of how it takes edits and of what is tracked and stands there
before, and none of this depends on the others.
-/

namespace CircuitSections

/-- What a report says of one target. -/
def ReconcileReport.on (report : ReconcileReport) (target : TargetId) :
    ReconcileReport :=
  ⟨report.targets.filter fun one => one.target = target⟩

namespace ReconcileReport

variable {report : ReconcileReport}

theorem injected_on (target : TargetId) :
    (report.on target).injected = report.injected.filter fun pair =>
      pair.1 = target := by
  obtain ⟨reports⟩ := report
  induction reports with
  | nil => rfl
  | cons first rest ih =>
      rw [injected_cons, List.filter_append, ← ih, on, List.filter_cons]
      by_cases here : first.target = target
      · simp [here, injected_cons, on, List.filter_map, Function.comp_def]
      · simp [here, on, List.filter_map, Function.comp_def]

theorem mem_gone_on {ledger : Ledger} {target : TargetId}
    {handle : SectionHandle} :
    (target, handle) ∈ (report.on target).gone ledger ↔
      (target, handle) ∈ report.gone ledger := by
  simp only [gone, on, List.mem_flatMap, List.mem_filter, decide_eq_true_eq]
  constructor
  · rintro ⟨one, ⟨listed, _⟩, member⟩
    exact ⟨one, listed, member⟩
  · rintro ⟨one, listed, member⟩
    obtain ⟨entry, _, onTarget, same⟩ := one.mem_gone member
    exact ⟨one, ⟨listed, onTarget.symm.trans (Prod.mk.inj same).1.symm⟩, member⟩

end ReconcileReport

namespace MemoryHost

/-- Another host is the same but for which of some targets refuse edits, and
why. -/
structure SameButRefusals (refused : Set TargetId)
    (host other : MemoryHost) : Prop where
  channels : other.channels = host.channels
  wiring : other.wiring = host.wiring
  next : other.nextHandle = host.nextHandle
  elsewhere : ∀ target ∉ refused, other.targets target = host.targets target
  within : ∀ target ∈ refused,
    (other.targets target).map (fun state => { state with refusal := none }) =
      (host.targets target).map fun state => { state with refusal := none }

namespace SameButRefusals

variable {refused : Set TargetId} {host other : MemoryHost}

theorem access (alike : SameButRefusals refused host other) {target : TargetId}
    (free : target ∉ refused) : other.access target = host.access target := by
  rw [MemoryHost.access, MemoryHost.access, alike.elsewhere target free]

theorem sectionList (alike : SameButRefusals refused host other)
    (target : TargetId) :
    other.sectionList target = host.sectionList target := by
  have same : (other.targets target).map Target.sections =
      (host.targets target).map Target.sections := by
    by_cases inside : target ∈ refused
    · have stripped :=
        congrArg (Option.map Target.sections) (alike.within target inside)
      simpa [Option.map_map, Function.comp_def] using stripped
    · rw [alike.elsewhere target inside]
  unfold MemoryHost.sectionList
  cases here : host.targets target <;> cases there : other.targets target <;>
    simp_all

theorem below (alike : SameButRefusals refused host other)
    (below : host.Below) : other.Below := by
  intro target entry member
  rw [alike.sectionList target] at member
  rw [alike.next]
  exact below target entry member

end SameButRefusals

theorem sameButRefusals_reject (host : MemoryHost) (target : TargetId)
    (reason : String) :
    host.SameButRefusals {target} (host.reject target reason) := by
  unfold reject updateTarget
  cases found : host.targets target with
  | none => exact ⟨rfl, rfl, rfl, fun _ _ => rfl, fun _ _ => rfl⟩
  | some state =>
      refine ⟨rfl, rfl, rfl, ?_, ?_⟩
      · intro other apart
        exact if_neg apart
      · rintro other rfl
        simp [replaceAt, found]

end MemoryHost

namespace Reconciliation

variable {owner : CombinatorId} {desired : SpecSet} {tick : UInt64}
  {list order : List TargetId}
  {ledger : Ledger} {refused : Set TargetId} {host other : MemoryHost}

theorem targets_on (once : list.Nodup) (owner : CombinatorId)
    (desired : SpecSet) (tick : UInt64) (ledger : Ledger) (host : MemoryHost)
    (target : TargetId) :
    (targets owner desired tick list ledger host).1.on target =
      ⟨(list.filter (· = target)).map fun target =>
        reportOn (host.access target) ledger owner desired target⟩ := by
  rw [ReconcileReport.on, targets_reports once, List.filter_map]
  simp only [Function.comp_def, reportOn_target]

/-- A target that takes edits as before has the same report, in whichever
order. -/
theorem targets_on_congr (once : list.Nodup) (permuted : order.Perm list)
    (owner : CombinatorId) (desired : SpecSet) (tick : UInt64) (ledger : Ledger)
    {target : TargetId} (access : other.access target = host.access target) :
    (targets owner desired tick order ledger other).1.on target =
      (targets owner desired tick list ledger host).1.on target := by
  have same : order.filter (· = target) = list.filter (· = target) := by
    rw [List.filter_eq, List.filter_eq, permuted.count_eq]
  rw [targets_on once, targets_on (permuted.nodup_iff.mpr once), same]
  congr 1
  apply List.map_congr_left
  intro found member
  obtain rfl : found = target := by simpa using (List.mem_filter.mp member).2
  rw [access]

/-- The entry is that of a section which the run has added. -/
def Adds (owner : CombinatorId) (tick : UInt64) (report : ReconcileReport)
    (entry : TrackedSection) : Prop :=
  entry.owner = owner ∧ entry.injectedAt = tick ∧ (entry.target, entry.spec) ∈
    report.injected

/-- A place on a target that takes edits as before is left the same, up to a new
handle. -/
theorem at?_targets_congr (once : list.Nodup) (permuted : order.Perm list)
    (owner : CombinatorId) (desired : SpecSet) (tick : UInt64) (ledger : Ledger)
    {place : SlotKey}
    (access : other.access place.target = host.access place.target) :
    Ledger.SameSlot
      (Adds owner tick (targets owner desired tick list ledger host).1)
      ((targets owner desired tick list ledger host).2.1.at? place)
      ((targets owner desired tick order ledger other).2.1.at? place) := by
  obtain ⟨handle, left⟩ := at?_targets owner desired tick list ledger host place
  obtain ⟨another, leftAgain⟩ :=
    at?_targets owner desired tick order ledger other place
  rw [left, leftAgain, access]
  by_cases listed : place.target ∈ list
  · rw [if_pos listed, if_pos (permuted.mem_iff.mpr listed)]
    rcases leaves_handles (host.access place.target) owner desired tick place
      (ledger.at? place)
      with alike | ⟨accepting, foreign, spec, wanted, key, spelling, new⟩
    · rw [alike handle another]
      exact .same _
    · rw [new, new]
      refine .renumbered another ⟨rfl, rfl, ?_⟩
      have reports := targets_reports once owner desired tick ledger host
      refine (ReconcileReport.mem_injected reports fun _ => reportOn_target).mpr
        ⟨listed, ?_⟩
      rw [mem_injected_reportOn, Ledger.owns_iff_at?, key]
      exact ⟨accepting, wanted, by simp [foreign]⟩
  · rw [if_neg listed, if_neg fun member => listed (permuted.mem_iff.mp member)]
    exact .same _

/-- What stands on a target after a run depends only on what the run reports of
it. -/
theorem sections_targets_congr (once : list.Nodup) (permuted : order.Perm list)
    (alike : host.SameButRefusals refused other) (below : host.Below)
    (issued : ledger.Issued host list)
    (room : host.nextHandle.toNat +
      (targets owner desired tick list ledger host).1.injected.length <
        UInt64.size)
    (roomAgain : host.nextHandle.toNat +
      (targets owner desired tick order ledger other).1.injected.length <
        UInt64.size)
    {target : TargetId} (free : target ∉ refused) :
    (targets owner desired tick order ledger other).2.2.sections target =
      (targets owner desired tick list ledger host).2.2.sections target := by
  have issuedAgain : ledger.Issued other order := by
    intro entry tracked listed
    rw [alike.next]
    exact issued entry tracked (permuted.mem_iff.mp listed)
  have edited := edited_targets owner desired tick once below issued room
  have editedAgain :=
    edited_targets owner desired tick (permuted.nodup_iff.mpr once)
      (alike.below below) issuedAgain (by rwa [alike.next])
  have report :=
    targets_on_congr once permuted owner desired tick ledger (alike.access free)
  obtain ⟨new, sections, specs, _⟩ := edited.sections target
  obtain ⟨newAgain, sectionsAgain, specsAgain, _⟩ := editedAgain.sections target
  have kept (handle : SectionHandle) :
      (target, handle) ∈
        (targets owner desired tick order ledger other).1.gone ledger ↔
          (target, handle) ∈
            (targets owner desired tick list ledger host).1.gone ledger := by
    rw [← ReconcileReport.mem_gone_on, report, ReconcileReport.mem_gone_on]
  rw [MemoryHost.sections_eq_map, MemoryHost.sections_eq_map,
    sections, sectionsAgain, List.map_append, List.map_append, specs,
    specsAgain, alike.sectionList,
    ← ReconcileReport.injected_on, ← ReconcileReport.injected_on, report]
  simp only [kept]

end Reconciliation

namespace World

/-- Targets that refuse edits do not matter to the others, and neither does the
order: with the same ledger, two runs over hosts that differ only in refusals of
some targets leave every other target with the same report, the same entries up
to the handles of the sections that were added, and, as long as handles are not
used up, the same sections. -/
theorem refusals_stay_local {past : List Engine} {world : MemoryWorld}
    (reached : Reached past world) {refused : Set TargetId} {other : MemoryHost}
    (alike : world.host.SameButRefusals refused other)
    {list order : List TargetId} (once : list.Nodup)
    (permuted : order.Perm list) {ledger : Ledger}
    (issued : ledger.Issued world.host list) (owner : CombinatorId)
    (desired : SpecSet) (tick : UInt64) :
    let ran := Reconciliation.targets owner desired tick list ledger world.host
    let again := Reconciliation.targets owner desired tick order ledger other
    ran.1.targets.map TargetReport.target = list ∧
      again.1.targets.map TargetReport.target = order ∧
      (∀ target ∉ refused, again.1.on target = ran.1.on target) ∧
      (∀ place : SlotKey, place.target ∉ refused →
        Ledger.SameSlot (Reconciliation.Adds owner tick ran.1)
          (ran.2.1.at? place)
          (again.2.1.at? place)) ∧
      ((creations world.log).length + ran.1.injected.length < UInt64.size →
        (creations world.log).length + again.1.injected.length < UInt64.size →
          ∀ target ∉ refused, again.2.2.sections target =
            ran.2.2.sections target) := by
  intro ran again
  refine ⟨Reconciliation.map_target_targets owner desired tick list
    ledger world.host, Reconciliation.map_target_targets owner desired tick
      order ledger other, ?_, ?_, ?_⟩
  · intro target free
    exact Reconciliation.targets_on_congr once permuted owner
      desired tick ledger (alike.access free)
  · intro place free
    exact Reconciliation.at?_targets_congr once permuted owner
      desired tick ledger (alike.access free)
  · intro room roomAgain target free
    have sound := reached.sound
    have few : Few world.log := Nat.lt_of_le_of_lt (Nat.le_add_right _ _) room
    rw [← sound.numbered.next_toNat few] at room roomAgain
    exact Reconciliation.sections_targets_congr once permuted alike
      (sound.below few) issued room
      roomAgain free

theorem refusals_stay_local_sealed :
    let desired : SpecSet := .ofList [Combinator.copper]
    let tracked := earlierShift.engine.ledger
    let ran :=
      Reconciliation.targets ⟨7⟩ desired 9 [⟨1⟩, ⟨2⟩] tracked earlierShift.host
    let again := Reconciliation.targets ⟨7⟩ desired 9 [⟨2⟩, ⟨1⟩] tracked
      (earlierShift.host.reject ⟨1⟩ "sealed")
    (ran.2.1.get? ⟨2⟩ Combinator.copper).map TrackedSection.handle = some ⟨2⟩ ∧
      (again.2.1.get? ⟨2⟩ Combinator.copper).map TrackedSection.handle =
        some ⟨1⟩ ∧
      again.1.on ⟨2⟩ = ran.1.on ⟨2⟩ ∧
      Ledger.SameSlot (Reconciliation.Adds ⟨7⟩ 9 ran.1)
        (ran.2.1.at? ⟨⟨2⟩, Combinator.copper.key⟩)
          (again.2.1.at? ⟨⟨2⟩, Combinator.copper.key⟩) ∧
      again.2.2.sections ⟨2⟩ = ran.2.2.sections ⟨2⟩ := by
  intro desired tracked ran again
  obtain ⟨past, reached⟩ : ∃ past, Reached past earlierShift :=
    (Reached.start .default ⟨0⟩).run (by simp [Operation.LoadsFrom])
  have alike : earlierShift.host.SameButRefusals {⟨1⟩}
      (earlierShift.host.reject ⟨1⟩ "sealed") :=
    MemoryHost.sameButRefusals_reject earlierShift.host ⟨1⟩ "sealed"
  have issued : tracked.Issued earlierShift.host [⟨1⟩, ⟨2⟩] := by
    unfold Ledger.Issued
    decide +kernel
  obtain ⟨_, _, reports, entries, sections⟩ :=
    refusals_stay_local reached alike (by decide)
      (List.Perm.swap ⟨1⟩ ⟨2⟩ []) issued ⟨7⟩ desired 9
  have free : (⟨2⟩ : TargetId) ∉ ({⟨1⟩} : Set TargetId) :=
    fun same => absurd (Set.mem_singleton_iff.mp same) (by decide)
  exact ⟨by decide +kernel, by decide +kernel, reports ⟨2⟩ free,
    entries ⟨⟨2⟩, _⟩ free, sections (by decide +kernel)
      (by decide +kernel) ⟨2⟩ free⟩

end World

end CircuitSections
