import CircuitSections.Host.Scripted
import CircuitSections.Proofs.Tracking.Answers
import Mathlib.Data.List.Nodup

/-!
# What a reconciliation leaves

The whole effect of bringing one target to what its owner desires, on any host:
which calls are made, how the answers make the report, and what the ledger holds
afterwards at every place.  What failed, and only that, is what the next
reconciliation with the same wishes asks for.
-/

namespace CircuitSections

namespace Ledger

variable {ledger : Ledger} {owner : CombinatorId} {target : TargetId}

theorem mem_ownedSpecs_iff {spec : SectionSpec} :
    spec ∈ (ledger.ownedSpecs owner target).toList ↔
      ∃ entry, ledger.at? ⟨target, spec.key⟩ = some (spec, entry) ∧
        entry.owner = owner := by
  constructor
  · exact mem_ownedSpecs
  · rintro ⟨entry, found, owned⟩
    have listed : (ledger.ownedSpecs owner target).find? spec.key =
        some spec := by
      rw [find?_ownedSpecs, found, Option.filter_some_pos (by simp [owned])]
      rfl
    exact (Ascending.find?_eq_some_iff.mp listed).1

end Ledger

namespace Reconciliation

/-- The answers are those to the edits of a plan. -/
structure Answered (owner : CombinatorId) (target : TargetId)
    (desired : SpecSet) (ledger : Ledger)
    (removals : List (SectionSpec × Except HostError Unit))
    (additions : List (SectionSpec × Except HostError SectionHandle)) :
      Prop where
  asked : removals.map Prod.fst =
    ((ledger.ownedSpecs owner target).difference desired).toList
  added : additions.map Prod.fst =
    (desired.difference (ledger.ownedSpecs owner target)).toList

/-- The specs of the edits of one kind that failed. -/
def failed (edit : SectionEdit) (report : TargetReport) : List SectionSpec :=
  (report.failures.filter fun failure => failure.edit = edit).map
    SectionFailure.spec

/-- What is left of a target after the given answers to the edits of its
plan. -/
structure Effect (owner : CombinatorId) (target : TargetId) (desired : SpecSet)
    (tick : UInt64) (ledger : Ledger)
    (removals : List (SectionSpec × Except HostError Unit))
    (additions : List (SectionSpec × Except HostError SectionHandle))
    (report : TargetReport) (after : Ledger) : Prop where
  /-- Each edit of the plan has its answer, in the order of the plan. -/
  answered : Answered owner target desired ledger removals additions
  /-- The answers to removals make the removed specs and the first failures, in
  order; those to additions make the added ones and the other failures; and what
  was tracked in place of an added section is listed as displaced. -/
  reported : report =
    { target
      outcome := .applied
      removed := goneIn removals
      injected := (placedIn additions).map Prod.fst
      failures := removals.filterMap removalFailure? ++ additions.filterMap
        additionFailure?
      orphaned := ledger.entriesFor target ((placedIn additions).map Prod.fst) }
  /-- Nothing of the owner's own is displaced. -/
  displaced : ∀ entry ∈ report.orphaned, entry.owner ≠ owner
  dropped : ∀ spec ∈ report.removed, after.get? target spec = none
  tracked : ∀ spec handle, (spec, .ok handle) ∈ additions →
    after.get? target spec = some ⟨target, spec, owner, handle, tick⟩
  /-- The places of all other specs, and of all other targets, are as they
  were. -/
  elsewhere : ∀ place : SlotKey,
    (place.target = target → ∀ spec ∈ report.removed ++ report.injected,
      spec.key ≠ place.spec) →
      after.at? place = ledger.at? place
  owned : ∀ key, (after.ownedSpecs owner target).contains key = true ↔
    (ledger.ownedSpecs owner target).contains key = true ∧
        (∀ spec ∈ report.removed, spec.key ≠ key) ∨
      ∃ spec ∈ report.injected, spec.key = key
  /-- The next plan is what failed, under the handles of before. -/
  resumes : EditPlan.between (after.ownedSpecs owner target) desired =
    ⟨failed .remove report, failed .add report⟩
  sameHandles : after.handlesFor target (failed .remove report) =
    ledger.handlesFor target (failed .remove report)

/-- The ledger after the answers to the edits of one target. -/
def ledgerAfter (owner : CombinatorId) (target : TargetId) (tick : UInt64)
    (ledger : Ledger) (removals : List (SectionSpec × Except HostError Unit))
    (additions : List (SectionSpec × Except HostError SectionHandle)) :
    Ledger :=
  (ledger.forgetAll target (goneIn removals)).recordEach owner tick target
    (placedIn additions)

namespace Answered

variable {owner : CombinatorId} {target : TargetId} {desired : SpecSet}
  {tick : UInt64}
  {ledger : Ledger} {removals : List (SectionSpec × Except HostError Unit)}
  {additions : List (SectionSpec × Except HostError SectionHandle)}
  {spec : SectionSpec}

theorem of_removal
    (answered : Answered owner target desired ledger removals additions)
    {answer : Except HostError Unit} (listed : (spec, answer) ∈ removals) :
    spec ∈ (ledger.ownedSpecs owner target).toList ∧
      desired.contains spec.key = false := by
  apply Ascending.mem_difference.mp
  rw [← answered.asked]
  exact List.mem_map_of_mem listed

theorem of_addition
    (answered : Answered owner target desired ledger removals additions)
    {answer : Except HostError SectionHandle}
    (listed : (spec, answer) ∈ additions) :
    spec ∈ desired.toList ∧ (ledger.ownedSpecs owner target).contains spec.key =
      false := by
  apply Ascending.mem_difference.mp
  rw [← answered.added]
  exact List.mem_map_of_mem listed

theorem removal_unique
    (answered : Answered owner target desired ledger removals additions)
    {a b : SectionSpec × Except HostError Unit} (left : a ∈ removals)
    (right : b ∈ removals) (same : a.1.key = b.1.key) : a = b := by
  have nodup : (removals.map fun answer => answer.1.key).Nodup := by
    have keys :=
      ((ledger.ownedSpecs owner target).difference desired).keys_nodup
    rw [Ascending.keys, ← answered.asked, List.map_map] at keys
    exact keys
  exact List.inj_on_of_nodup_map nodup left right same

theorem addition_unique
    (answered : Answered owner target desired ledger removals additions)
    {a b : SectionSpec × Except HostError SectionHandle} (left : a ∈ additions)
    (right : b ∈ additions) (same : a.1.key = b.1.key) : a = b := by
  have nodup : (additions.map fun answer => answer.1.key).Nodup := by
    have keys :=
      (desired.difference (ledger.ownedSpecs owner target)).keys_nodup
    rw [Ascending.keys, ← answered.added, List.map_map] at keys
    exact keys
  exact List.inj_on_of_nodup_map nodup left right same

theorem ne_of_undesired
    (answered : Answered owner target desired ledger removals additions)
    {key : SpecKey} (undesired : desired.contains key = false)
    (injected : spec ∈ (placedIn additions).map Prod.fst) : spec.key ≠ key := by
  rintro rfl
  obtain ⟨handle, added⟩ := mem_injected.mp injected
  have desires := Ascending.contains_of_mem (answered.of_addition added).1
  rw [undesired] at desires
  cases desires

theorem ne_of_desired
    (answered : Answered owner target desired ledger removals additions)
    {key : SpecKey} (desires : desired.contains key = true)
    (gone : spec ∈ goneIn removals) :
    spec.key ≠ key := by
  rintro rfl
  obtain ⟨answer, listed, _⟩ := mem_goneIn.mp gone
  have undesired := (answered.of_removal listed).2
  rw [desires] at undesired
  cases undesired

theorem placed_distinct
    (answered : Answered owner target desired ledger removals additions) :
    (placedIn additions).Pairwise fun a b => a.1.key ≠ b.1.key := by
  have apart :=
    Ascending.keys_apart (desired.difference (ledger.ownedSpecs owner target))
  rw [← answered.added, List.pairwise_map] at apart
  apply apart.filterMap
  rintro ⟨first, answer⟩ ⟨second, reply⟩ different one placed other later
  cases answer with
  | error cause => cases placed
  | ok handle =>
      cases reply with
      | error cause => cases later
      | ok given =>
          cases placed
          cases later
          exact different

theorem at?_elsewhere {place : SlotKey}
    (other : place.target = target →
      ∀ spec ∈ goneIn removals ++ (placedIn additions).map Prod.fst,
        spec.key ≠ place.spec) :
    (ledgerAfter owner target tick ledger removals additions).at? place =
      ledger.at? place := by
  rw [ledgerAfter, Ledger.at?_recordEach_elsewhere,
    Ledger.at?_forgetAll, if_neg]
  · rintro ⟨onTarget, spec, gone, same⟩
    exact other onTarget spec (List.mem_append_left _ gone) same
  · intro onTarget added listed
    exact other onTarget added.1
      (List.mem_append_right _ (List.mem_map_of_mem listed))

theorem at?_gone
    (answered : Answered owner target desired ledger removals additions)
    (gone : spec ∈ goneIn removals) :
    (ledgerAfter owner target tick ledger removals additions).at?
      ⟨target, spec.key⟩ = none := by
  obtain ⟨answer, listed, _⟩ := mem_goneIn.mp gone
  obtain ⟨_, undesired⟩ := answered.of_removal listed
  rw [ledgerAfter, Ledger.at?_recordEach_elsewhere, Ledger.at?_forgetAll]
  · exact if_pos ⟨rfl, spec, gone, rfl⟩
  · intro _ added placed
    exact answered.ne_of_undesired undesired (List.mem_map_of_mem placed)

theorem at?_placed
    (answered : Answered owner target desired ledger removals additions)
    {handle : SectionHandle} (placed : (spec, .ok handle) ∈ additions) :
    ∃ spelling, (ledgerAfter owner target tick ledger removals additions).at?
      ⟨target, spec.key⟩ =
        some (spelling, ⟨target, spec, owner, handle, tick⟩) :=
  Ledger.at?_recordEach answered.placed_distinct (mem_placedIn.mpr placed)

/-- What is owned afterwards is what was owned and did not go, and what was
added. -/
theorem contains_after
    (answered : Answered owner target desired ledger removals additions)
    (key : SpecKey) :
    ((ledgerAfter owner target tick ledger removals additions).ownedSpecs owner
      target).contains key = true ↔
        (ledger.ownedSpecs owner target).contains key = true ∧
          (∀ spec ∈ goneIn removals, spec.key ≠ key) ∨
        ∃ spec ∈ (placedIn additions).map Prod.fst, spec.key = key := by
  rw [Ledger.contains_ownedSpecs, Ledger.owns_iff_at?]
  by_cases placed : ∃ spec ∈ (placedIn additions).map Prod.fst, spec.key = key
  · obtain ⟨spec, injected, rfl⟩ := placed
    obtain ⟨handle, listed⟩ := mem_injected.mp injected
    obtain ⟨_, found⟩ := answered.at?_placed listed
    rw [found]
    constructor
    · intro _
      exact .inr ⟨spec, injected, rfl⟩
    · intro _
      exact decide_eq_true rfl
  · by_cases gone : ∃ spec ∈ goneIn removals, spec.key = key
    · obtain ⟨spec, dropped, rfl⟩ := gone
      rw [answered.at?_gone dropped]
      constructor
      · exact nofun
      · rintro (⟨_, kept⟩ | added)
        · exact absurd rfl (kept spec dropped)
        · exact absurd added placed
    · have other :
          ∀ spec ∈ goneIn removals ++ (placedIn additions).map Prod.fst,
          spec.key ≠ key := by
        intro spec listed same
        rcases List.mem_append.mp listed with dropped | injected
        · exact gone ⟨spec, dropped, same⟩
        · exact placed ⟨spec, injected, same⟩
      rw [at?_elsewhere fun _ => other, ← Ledger.owns_iff_at?,
        ← Ledger.contains_ownedSpecs]
      constructor
      · intro owned
        exact .inl ⟨owned, fun spec dropped =>
          other spec (List.mem_append_left _ dropped)⟩
      · rintro (⟨owned, _⟩ | added)
        · exact owned
        · exact absurd added placed

theorem at?_refused
    (answered : Answered owner target desired ledger removals additions)
    {answer : Except HostError Unit} (listed : (spec, answer) ∈ removals)
    (refused : isGone answer = false) :
    (ledgerAfter owner target tick ledger removals additions).at?
      ⟨target, spec.key⟩ =
        ledger.at? ⟨target, spec.key⟩ := by
  obtain ⟨_, undesired⟩ := answered.of_removal listed
  apply at?_elsewhere
  intro _ other changed same
  rcases List.mem_append.mp changed with gone | injected
  · obtain ⟨reply, among, left⟩ := mem_goneIn.mp gone
    cases answered.removal_unique among listed same
    rw [refused] at left
    cases left
  · exact answered.ne_of_undesired undesired injected same

theorem mem_remove_after
    (answered : Answered owner target desired ledger removals additions) :
    spec ∈
      (((ledgerAfter owner target tick ledger removals additions).ownedSpecs
        owner
        target).difference desired).toList ↔
        ∃ answer, (spec, answer) ∈ removals ∧ isGone answer = false := by
  rw [Ascending.mem_difference, Ledger.mem_ownedSpecs_iff]
  constructor
  · rintro ⟨⟨entry, found, owned⟩, undesired⟩
    have stays : ∀ other ∈ goneIn removals, other.key ≠ spec.key := by
      intro other gone same
      rw [← same, answered.at?_gone gone] at found
      cases found
    have unplaced : ∀ other ∈ (placedIn additions).map Prod.fst,
        other.key ≠ spec.key := by
      intro other injected
      exact answered.ne_of_undesired undesired injected
    rw [at?_elsewhere fun _ =>
      List.forall_mem_append.mpr ⟨stays, unplaced⟩] at found
    have planned : spec ∈ removals.map Prod.fst := by
      rw [answered.asked]
      exact Ascending.mem_difference.mpr
        ⟨Ledger.mem_ownedSpecs_iff.mpr ⟨entry, found, owned⟩, undesired⟩
    obtain ⟨⟨_, answer⟩, listed, rfl⟩ := List.mem_map.mp planned
    refine ⟨answer, listed, ?_⟩
    rw [← Bool.not_eq_true]
    intro gone
    exact stays _ (mem_goneIn.mpr ⟨answer, listed, gone⟩) rfl
  · rintro ⟨answer, listed, failed⟩
    obtain ⟨owned, undesired⟩ := answered.of_removal listed
    rw [answered.at?_refused listed failed]
    exact ⟨Ledger.mem_ownedSpecs_iff.mp owned, undesired⟩

theorem mem_inject_after
    (answered : Answered owner target desired ledger removals additions) :
    spec ∈ (desired.difference ((ledgerAfter owner target tick ledger removals
        additions).ownedSpecs owner target)).toList ↔
        ∃ cause, (spec, .error cause) ∈ additions := by
  rw [Ascending.mem_difference, ← Bool.not_eq_true, answered.contains_after]
  constructor
  · rintro ⟨wanted, unowned⟩
    have before : (ledger.ownedSpecs owner target).contains spec.key =
        false := by
      rw [← Bool.not_eq_true]
      intro owned
      apply unowned
      refine .inl ⟨owned, fun other gone => ?_⟩
      exact answered.ne_of_desired (Ascending.contains_of_mem wanted) gone
    have planned : spec ∈ additions.map Prod.fst := by
      rw [answered.added]
      exact Ascending.mem_difference.mpr ⟨wanted, before⟩
    obtain ⟨⟨_, answer⟩, listed, rfl⟩ := List.mem_map.mp planned
    cases answer with
    | ok handle =>
        exact absurd (.inr ⟨_, mem_injected.mpr ⟨handle, listed⟩, rfl⟩) unowned
    | error cause => exact ⟨cause, listed⟩
  · rintro ⟨cause, listed⟩
    obtain ⟨wanted, unowned⟩ := answered.of_addition listed
    refine ⟨wanted, ?_⟩
    rintro (⟨owned, _⟩ | ⟨other, injected, same⟩)
    · rw [unowned] at owned
      cases owned
    · obtain ⟨handle, added⟩ := mem_injected.mp injected
      cases answered.addition_unique added listed same

/-- What is still to be removed is what failed to be. -/
theorem remove_after
    (answered : Answered owner target desired ledger removals additions) :
    (((ledgerAfter owner target tick ledger removals additions).ownedSpecs owner
      target).difference
        desired).toList = (removals.filterMap removalFailure?).map
          SectionFailure.spec := by
  rw [specs_of_failures fun _ _ => spec_of_removalFailure?]
  have among :
      ((removals.filter fun answer => (removalFailure? answer).isSome).map
        Prod.fst).Sublist
        ((ledger.ownedSpecs owner target).difference desired).toList := by
    rw [← answered.asked]
    exact List.filter_sublist.map _
  apply Ascending.toList_eq_of_sublist among
  intro spec
  rw [answered.mem_remove_after]
  simp only [List.mem_map, List.mem_filter, isSome_removalFailure?,
    Bool.not_eq_true', Prod.exists, exists_and_right, exists_eq_right]

/-- What is still to be added is what failed to be. -/
theorem inject_after
    (answered : Answered owner target desired ledger removals additions) :
    (desired.difference
      ((ledgerAfter owner target tick ledger removals additions).ownedSpecs
        owner target)).toList =
        (additions.filterMap additionFailure?).map SectionFailure.spec := by
  rw [specs_of_failures fun _ _ => spec_of_additionFailure?]
  have among :
      ((additions.filter fun answer => (additionFailure? answer).isSome).map
        Prod.fst).Sublist
        (desired.difference (ledger.ownedSpecs owner target)).toList := by
    rw [← answered.added]
    exact List.filter_sublist.map _
  apply Ascending.toList_eq_of_sublist among
  intro spec
  rw [answered.mem_inject_after]
  constructor
  · rintro ⟨cause, listed⟩
    exact List.mem_map.mpr ⟨_, List.mem_filter.mpr ⟨listed, rfl⟩, rfl⟩
  · intro kept
    obtain ⟨⟨_, answer⟩, refusal, rfl⟩ := List.mem_map.mp kept
    obtain ⟨listed, failed⟩ := List.mem_filter.mp refusal
    cases answer with
    | ok handle => cases failed
    | error cause => exact ⟨cause, listed⟩

theorem displaced
    (answered : Answered owner target desired ledger removals additions)
    {entry : TrackedSection}
    (orphan :
      entry ∈ ledger.entriesFor target ((placedIn additions).map Prod.fst)) :
    entry.owner ≠ owner := by
  obtain ⟨spec, injected, found⟩ := List.mem_flatMap.mp orphan
  obtain ⟨handle, added⟩ := mem_injected.mp injected
  obtain ⟨member, onTarget, same⟩ :=
    Ledger.get?_eq_some_iff.mp (Option.mem_toList.mp found)
  intro owned
  have owns : ledger.Owns owner target spec.key :=
    ⟨entry, member, owned, by rw [TrackedSection.place, onTarget, same]⟩
  have unowned := (answered.of_addition added).2
  rw [Ledger.contains_ownedSpecs.mpr owns] at unowned
  cases unowned

/-- What an added section displaces was not removed before. -/
theorem entriesFor_forgotten
    (answered : Answered owner target desired ledger removals additions) :
    (ledger.forgetAll target (goneIn removals)).entriesFor target
        ((placedIn additions).map Prod.fst) =
        ledger.entriesFor target ((placedIn additions).map Prod.fst) := by
  apply Ledger.entriesFor_congr
  intro spec injected
  obtain ⟨handle, added⟩ := mem_injected.mp injected
  have desires := Ascending.contains_of_mem (answered.of_addition added).1
  rw [Ledger.get?_eq_at?, Ledger.get?_eq_at?, Ledger.at?_forgetAll, if_neg]
  rintro ⟨_, other, gone, same⟩
  exact answered.ne_of_desired desires gone same

/-- What is left after the answers to a plan. -/
theorem effect
    (answered : Answered owner target desired ledger removals additions) :
    Effect owner target desired tick ledger removals additions
      { target
        outcome := .applied
        removed := goneIn removals
        injected := (placedIn additions).map Prod.fst
        failures := removals.filterMap removalFailure? ++ additions.filterMap
          additionFailure?
        orphaned := ledger.entriesFor target
          ((placedIn additions).map Prod.fst) }
      (ledgerAfter owner target tick ledger removals additions) where
  answered := answered
  reported := rfl
  displaced _ orphan := answered.displaced orphan
  dropped spec gone := by
    rw [Ledger.get?_eq_at?, answered.at?_gone gone]
    rfl
  tracked spec handle added := by
    obtain ⟨_, found⟩ := answered.at?_placed added
    rw [Ledger.get?_eq_at?, found]
    rfl
  elsewhere _ other := at?_elsewhere other
  owned := answered.contains_after
  resumes := by
    rw [EditPlan.between, answered.remove_after, answered.inject_after,
      failed, failed, specs_of_edit, specs_of_edit]
  sameHandles := by
    apply Ledger.handlesFor_congr
    intro spec listed
    rw [failed, specs_of_edit, specs_of_failures fun _ _ =>
      spec_of_removalFailure?] at listed
    obtain ⟨⟨_, answer⟩, refusal, rfl⟩ := List.mem_map.mp listed
    obtain ⟨asked, refused⟩ := List.mem_filter.mp refusal
    rw [isSome_removalFailure?, Bool.not_eq_true'] at refused
    rw [Ledger.get?_eq_at?, Ledger.get?_eq_at?,
      answered.at?_refused asked refused]

end Answered

/-! ### On any host -/

theorem handlesFor_planned (ledger : Ledger) (owner : CombinatorId)
    (target : TargetId) (desired : SpecSet) :
    let specs := ((ledger.ownedSpecs owner target).difference desired).toList
    (ledger.handlesFor target specs).map Prod.fst = specs := by
  intro specs
  have all (listed : List SectionSpec) (among : ∀ spec ∈ listed, spec ∈ specs) :
      (ledger.handlesFor target listed).map Prod.fst = listed := by
    induction listed with
    | nil => rfl
    | cons spec rest ih =>
        obtain ⟨first, later⟩ := List.forall_mem_cons.mp among
        obtain ⟨entry, found, _⟩ :=
          Ledger.mem_ownedSpecs (Ascending.mem_difference.mp first).1
        have tracked : ledger.get? target spec = some entry := by
          rw [Ledger.get?_eq_at?, found]
          rfl
        have asked : ledger.handlesFor target (spec :: rest) =
            (spec, entry.handle) :: ledger.handlesFor target rest := by
          simp [Ledger.handlesFor, tracked]
        rw [asked, List.map_cons, ih later]
  exact all specs fun _ listed => listed

section Hosts

variable {σ : Type} [SectionEditor σ] {owner : CombinatorId} {target : TargetId}
  {desired : SpecSet} (tick : UInt64) {ledger : Ledger} {host next ready : σ}

theorem target_of_missing
    (missing : SectionEditor.targetExists target host = (false, next)) :
    Reconciliation.target owner target desired tick ledger host =
      (.without target .vanished, (ledger.forgetOwnedOn owner target).2,
        next) := by
  unfold Reconciliation.target
  rw [missing]
  rfl

theorem target_of_plain
    (alive : SectionEditor.targetExists target host = (true, next))
    (plain : SectionEditor.supportsSections target next = (false, ready)) :
    Reconciliation.target owner target desired tick ledger host =
      (.without target .unsupported, ledger, ready) := by
  unfold Reconciliation.target
  rw [alive]
  dsimp only
  rw [plain]
  rfl

/-- The answers are those to the plan, and what is left follows from them. -/
theorem target_of_supporting
    (alive : SectionEditor.targetExists target host = (true, next))
    (supports : SectionEditor.supportsSections target next = (true, ready))
    {plan : EditPlan}
    (planned : EditPlan.between (ledger.ownedSpecs owner target) desired = plan)
    {removals : List (SectionSpec × Except HostError Unit)} {edited : σ}
    (removing : SectionEditor.removeEach target
      (ledger.handlesFor target plan.remove) ready =
        (removals, edited))
    {additions : List (SectionSpec × Except HostError SectionHandle)} {done : σ}
    (adding : SectionEditor.addEach target plan.inject edited =
      (additions, done)) :
    ∃ report after, Reconciliation.target owner target desired
      tick ledger host =
        (report, after, done) ∧
      Effect owner target desired tick ledger removals additions
        report after := by
  subst planned
  let plan := EditPlan.between (ledger.ownedSpecs owner target) desired
  let work : TargetWork σ := ⟨ledger, ready, .without target .applied⟩
  have ran : Reconciliation.target owner target desired tick ledger host =
      let finished := plan.inject.foldl (TargetWork.inject owner tick)
        (plan.remove.foldl TargetWork.remove work)
      (finished.report, finished.ledger, finished.host) := by
    unfold Reconciliation.target
    rw [alive]
    dsimp only
    rw [supports]
    rfl
  have removed : plan.remove.foldl TargetWork.remove work =
      work.withRemovals removals edited :=
    TargetWork.removals_eq (Ascending.keys_apart _) removing
  have added : plan.inject.foldl (TargetWork.inject owner tick)
      (work.withRemovals removals edited) =
        (work.withRemovals removals edited).withAdditions owner tick
          additions done :=
    TargetWork.injections_eq (Ascending.keys_apart _) adding
  have asked : removals.map Prod.fst = plan.remove := by
    have specs :=
      SectionEditor.removeEach_specs target
        (ledger.handlesFor target plan.remove) ready
    rw [removing] at specs
    exact specs.trans (handlesFor_planned ledger owner target desired)
  have placed : additions.map Prod.fst = plan.inject := by
    have specs := SectionEditor.addEach_specs target plan.inject edited
    rw [adding] at specs
    exact specs
  have answered : Answered owner target desired ledger removals additions :=
    ⟨asked, placed⟩
  rw [removed, added] at ran
  refine ⟨_, _, ran.trans ?_, answered.effect⟩
  simp only [work, TargetWork.withRemovals, TargetWork.withAdditions,
    TargetReport.without, List.nil_append, answered.entriesFor_forgotten]
  rfl

end Hosts

/-- What a reconciliation of one target does, whatever the host answers: a
target that is gone is asked after and the owner's entries on it are dropped;
one that holds no sections is asked after and left alone; and on any other each
edit of the plan is asked for once, removals first, with the effect that the
answers have (`Effect`). -/
theorem target_effect {σ : Type} [SectionEditor σ] (owner : CombinatorId)
    (target : TargetId) (desired : SpecSet) (tick : UInt64) (ledger : Ledger)
    (host : Recorded σ) :
    let alive := SectionEditor.targetExists target host.host
    let supported := SectionEditor.supportsSections target alive.2
    let ran := Reconciliation.target owner target desired tick ledger host
    let report := ran.1
    let after := ran.2.1
    let asked := ran.2.2
    (alive.1 = false →
      report = .without target .vanished ∧
      asked = ⟨alive.2, host.calls ++ [.exists target]⟩ ∧
      ∀ place, after.at? place = (ledger.at? place).filter fun slot =>
        !(slot.2.owner = owner && slot.2.target = target)) ∧
    (alive.1 = true → supported.1 = false →
      report = .without target .unsupported ∧ after = ledger ∧
      asked = ⟨supported.2, host.calls ++ [.exists target, .supports target]⟩) ∧
    (alive.1 = true → supported.1 = true →
      let plan := EditPlan.between (ledger.ownedSpecs owner target) desired
      let handles := ledger.handlesFor target plan.remove
      let removals := SectionEditor.removeEach target handles supported.2
      let additions := SectionEditor.addEach target plan.inject removals.2
      handles.map Prod.fst = plan.remove ∧
      asked = ⟨additions.2, host.calls ++ [.exists target, .supports target] ++
        handles.map (fun tracked => .remove target tracked.2) ++ plan.inject.map
          (.add target)⟩ ∧
      Effect owner target desired tick ledger removals.1 additions.1
        report after) := by
  rcases existing : SectionEditor.targetExists target host.host with
    ⟨alive, found⟩
  dsimp only
  rcases supporting : SectionEditor.supportsSections target found with
    ⟨supported, ready⟩
  let looked : Recorded σ := ⟨found, host.calls ++ [.exists target]⟩
  let asked : Recorded σ :=
    ⟨ready, host.calls ++ [.exists target, .supports target]⟩
  have looks : SectionEditor.targetExists target host = (alive, looked) := by
    simp only [SectionEditor.targetExists, Recorded.ask] at existing ⊢
    rw [existing]
  have asks : SectionEditor.supportsSections target looked =
      (supported, asked) := by
    simp only [SectionEditor.supportsSections, Recorded.ask, looked,
      List.append_assoc, List.cons_append, List.nil_append] at supporting ⊢
    rw [supporting]
  cases alive with
  | false =>
      rw [target_of_missing tick looks]
      refine ⟨fun _ => ⟨rfl, rfl, ledger.at?_forgetOwnedOn owner target⟩,
        ?_, ?_⟩
      · rintro ⟨⟩
      · rintro ⟨⟩
  | true =>
      cases supported with
      | false =>
          rw [target_of_plain tick looks asks]
          refine ⟨?_, fun _ _ => ⟨rfl, rfl, rfl⟩, ?_⟩
          · rintro ⟨⟩
          · rintro - ⟨⟩
      | true =>
          let plan := EditPlan.between (ledger.ownedSpecs owner target) desired
          let handles := ledger.handlesFor target plan.remove
          rcases removing : SectionEditor.removeEach target handles ready with
            ⟨removals, edited⟩
          rcases adding : SectionEditor.addEach target plan.inject edited with
            ⟨additions, done⟩
          have removes := SectionEditor.removeEach_recorded target handles asked
          have adds := SectionEditor.addEach_recorded target plan.inject
            ⟨edited, asked.calls ++ handles.map fun tracked =>
              .remove target tracked.2⟩
          simp only [asked, removing] at removes
          simp only [adding] at adds
          obtain ⟨report, after, ran, effect⟩ :=
            target_of_supporting tick looks asks rfl removes adds
          have specs : handles.map Prod.fst = plan.remove :=
            handlesFor_planned ledger owner target desired
          rw [ran]
          refine ⟨?_, ?_, fun _ _ => ⟨specs, rfl, effect⟩⟩
          · rintro ⟨⟩
          · rintro - ⟨⟩

/-- Two sections with nothing in them. -/
def plate : SectionSpec := ⟨"plate", .ofParts false 0⟩

def wire : SectionSpec := { plate with name := "wire" }

/-- A host that adds sections to its one target but removes none. -/
def stubbornHost : Scripted MemoryHost :=
  (Scripted.plain (MemoryHost.empty.addTarget ⟨1⟩)).setFault ⟨1⟩ .remove
    (some (.rejected ⟨1⟩ "sealed"))

/-- Wire of the owner's own and the plate of another one. -/
def sharedLedger : Ledger :=
  .ofEntries [⟨⟨1⟩, wire, ⟨7⟩, ⟨41⟩, 1⟩, ⟨⟨1⟩, plate, ⟨8⟩, ⟨40⟩, 1⟩]

/-- The wire that stays is asked for again, and the plate has a new owner. -/
theorem target_effect_stubborn :
    let ran := Reconciliation.target ⟨7⟩ ⟨1⟩ (.ofList [plate]) 9 sharedLedger
      (⟨stubbornHost, []⟩ : Recorded (Scripted MemoryHost))
    ran.1 =
      ⟨⟨1⟩, .applied, [], [plate], [⟨.remove, wire, .rejected ⟨1⟩ "sealed"⟩],
       [⟨⟨1⟩, plate, ⟨8⟩, ⟨40⟩, 1⟩]⟩ ∧
    ran.2.2.calls =
      [.exists ⟨1⟩, .supports ⟨1⟩, .remove ⟨1⟩ ⟨41⟩, .add ⟨1⟩ plate] ∧
    ran.2.1.get? ⟨1⟩ plate = some ⟨⟨1⟩, plate, ⟨7⟩, ⟨0⟩, 9⟩ ∧
    EditPlan.between (ran.2.1.ownedSpecs ⟨7⟩ ⟨1⟩) (.ofList [plate]) =
      ⟨[wire], []⟩ := by
  intro ran
  have report : ran.1 =
      ⟨⟨1⟩, .applied, [], [plate], [⟨.remove, wire, .rejected ⟨1⟩ "sealed"⟩],
       [⟨⟨1⟩, plate, ⟨8⟩, ⟨40⟩, 1⟩]⟩ := by decide +kernel
  obtain ⟨-, -, supporting⟩ :=
    target_effect ⟨7⟩ ⟨1⟩ (.ofList [plate]) 9 sharedLedger
      (⟨stubbornHost, []⟩ : Recorded (Scripted MemoryHost))
  obtain ⟨-, asked, effect⟩ :=
    supporting (by decide +kernel) (by decide +kernel)
  refine ⟨report, ?_, ?_, ?_⟩
  · exact (congrArg Recorded.calls asked).trans (by decide +kernel)
  · exact effect.tracked plate ⟨0⟩ (by decide +kernel)
  · refine effect.resumes.trans ?_
    decide +kernel

end Reconciliation

end CircuitSections
