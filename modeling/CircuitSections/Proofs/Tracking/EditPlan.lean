import CircuitSections.Proofs.Section.Order
import CircuitSections.Proofs.Ordered.Keys
import CircuitSections.Tracking.EditPlan

/-!
# The least edits

An edit plan leads from the owned specs to the desired ones, in whatever order
its edits are made, and nothing that leads there leaves one of them out.  After
some of its edits have been made, the plan from there on is the rest of them, so
edits that failed are just those that are planned the next time.
-/

namespace CircuitSections

/-- The set after specs were removed and others added, one after the other. -/
def SpecSet.edited (specs : SpecSet) (removed added : List SectionSpec) :
    SpecSet :=
  added.foldl Ascending.put
    (removed.foldl (fun specs spec => specs.erase spec.key) specs)

namespace SpecSet

variable {specs : SpecSet} {removed added : List SectionSpec}
  {spec : SectionSpec}

private theorem mem_removals :
    spec ∈
      (removed.foldl (fun specs spec => specs.erase spec.key) specs).toList ↔
        spec ∈ specs.toList ∧ ∀ other ∈ removed, other.key ≠ spec.key := by
  induction removed generalizing specs with
  | nil => simp
  | cons first rest ih =>
      rw [List.foldl_cons, ih, Ascending.mem_erase, List.forall_mem_cons,
        and_assoc, ne_comm]

private theorem mem_additions (apart : ∀ other ∈ added, other.key ≠ spec.key) :
    spec ∈ (added.foldl Ascending.put specs).toList ↔ spec ∈ specs.toList := by
  induction added generalizing specs with
  | nil => rfl
  | cons first rest ih =>
      obtain ⟨firstApart, restApart⟩ := List.forall_mem_cons.mp apart
      have other : spec ≠ first := fun same => firstApart (same ▸ rfl)
      rw [List.foldl_cons, ih restApart, Ascending.mem_put]
      simp [other, Ne.symm firstApart]

theorem mem_edited (apart : ∀ other ∈ added, other.key ≠ spec.key) :
    spec ∈ (specs.edited removed added).toList ↔
      spec ∈ specs.toList ∧ ∀ other ∈ removed, other.key ≠ spec.key := by
  rw [edited, mem_additions apart, mem_removals]

theorem contains_edited {key : SpecKey} :
    (specs.edited removed added).contains key = true ↔
      (∃ spec ∈ added, spec.key = key) ∨
        specs.contains key = true ∧ ∀ other ∈ removed, other.key ≠ key := by
  rw [edited, Ascending.contains_foldl_put, Ascending.contains_iff,
    Ascending.contains_iff]
  apply or_congr_right
  simp only [mem_removals]
  constructor
  · intro kept
    obtain ⟨spec, ⟨member, apart⟩, rfl⟩ := kept
    exact ⟨⟨spec, member, rfl⟩, apart⟩
  · intro kept
    obtain ⟨⟨spec, member, rfl⟩, apart⟩ := kept
    exact ⟨spec, ⟨member, apart⟩, rfl⟩

end SpecSet

theorem SpecSet.standing_ascending (specs : SpecSet) :
    specs.toList.Pairwise (·.standing < ·.standing) :=
  specs.ascending.imp SectionSpec.standing_lt_iff.mpr

namespace EditPlan

open SpecSet (standing_ascending)

variable {owned desired : SpecSet} {spec : SectionSpec}

theorem mem_remove :
    spec ∈ (between owned desired).remove ↔
      spec ∈ owned.toList ∧ ¬ desired.contains spec.key = true := by
  rw [Bool.not_eq_true]
  exact Ascending.mem_difference

theorem mem_inject :
    spec ∈ (between owned desired).inject ↔
      spec ∈ desired.toList ∧ ¬ owned.contains spec.key = true := by
  rw [Bool.not_eq_true]
  exact Ascending.mem_difference

/-- The order in which the edits are made does not matter, only that they are
the planned ones. -/
theorem edited_keys {removed added : List SectionSpec}
    (removes : ∀ spec, spec ∈ removed ↔ spec ∈ (between owned desired).remove)
    (adds : ∀ spec, spec ∈ added ↔ spec ∈ (between owned desired).inject) :
    (owned.edited removed added).keys = desired.keys := by
  rw [Ascending.keys_eq_iff]
  intro key
  rw [SpecSet.contains_edited]
  simp only [removes, adds, mem_remove, mem_inject]
  constructor
  · intro there
    rcases there with ⟨spec, ⟨member, _⟩, rfl⟩ | ⟨own, kept⟩
    · exact Ascending.contains_of_mem member
    · obtain ⟨spec, member, rfl⟩ := Ascending.contains_iff.mp own
      apply Classical.byContradiction
      exact fun undesired => kept spec ⟨member, undesired⟩ rfl
  · intro want
    by_cases own : owned.contains key = true
    · refine .inr ⟨own, fun spec removal same => ?_⟩
      rw [same] at removal
      exact removal.2 want
    · obtain ⟨spec, member, rfl⟩ := Ascending.contains_iff.mp want
      exact .inl ⟨spec, ⟨member, own⟩, rfl⟩

/-- Whatever leads to the desired specs makes every planned edit. -/
theorem planned_of_edited {removed added : List SectionSpec}
    (reached : (owned.edited removed added).keys = desired.keys) :
    (∀ spec ∈ (between owned desired).remove, ∃ other ∈ removed,
      other.key = spec.key) ∧
      ∀ spec ∈ (between owned desired).inject, ∃ other ∈ added,
        other.key = spec.key := by
  rw [Ascending.keys_eq_iff] at reached
  constructor
  · intro spec removal
    obtain ⟨member, undesired⟩ := mem_remove.mp removal
    apply Classical.byContradiction
    intro kept
    apply undesired
    rw [← reached, SpecSet.contains_edited]
    refine .inr ⟨Ascending.contains_of_mem member, fun other listed same => ?_⟩
    exact kept ⟨other, listed, same⟩
  · intro spec addition
    obtain ⟨member, missing⟩ := mem_inject.mp addition
    have there := (reached spec.key).mpr (Ascending.contains_of_mem member)
    rcases SpecSet.contains_edited.mp there with listed | ⟨own, _⟩
    · exact listed
    · exact absurd own missing

theorem isEmpty_iff : (between owned desired).isEmpty = true ↔
    owned.keys = desired.keys := by
  rw [isEmpty, Bool.and_eq_true, List.isEmpty_iff, List.isEmpty_iff,
    Ascending.keys_eq_iff]
  show (owned.difference desired).toList = [] ∧
    (desired.difference owned).toList = [] ↔ _
  rw [Ascending.difference_eq_nil_iff, Ascending.difference_eq_nil_iff,
    ← forall_and]
  exact forall_congr' fun key => iff_iff_implies_and_implies.symm

section Rest

open Ascending (eq_of_key_eq)

variable {removed added : List SectionSpec}

theorem remove_edited (removes : removed ⊆ (between owned desired).remove)
    (adds : added ⊆ (between owned desired).inject) :
    (between (owned.edited removed added) desired).remove =
      (between owned desired).remove.filter (· ∉ removed) := by
  apply Ascending.toList_eq_of_sublist List.filter_sublist
  intro spec
  show spec ∈ (between (owned.edited removed added) desired).remove ↔
    spec ∈ (between owned desired).remove.filter (· ∉ removed)
  rw [mem_remove, List.mem_filter, decide_eq_true_eq]
  constructor
  · intro kept
    obtain ⟨there, undesired⟩ := kept
    have apart : ∀ other ∈ added, other.key ≠ spec.key := by
      intro other listed same
      apply undesired
      rw [← same]
      exact Ascending.contains_of_mem (mem_inject.mp (adds listed)).1
    obtain ⟨member, unremoved⟩ := (SpecSet.mem_edited apart).mp there
    exact ⟨mem_remove.mpr ⟨member, undesired⟩, fun listed =>
      unremoved spec listed rfl⟩
  · intro left
    obtain ⟨planned, unlisted⟩ := left
    obtain ⟨member, undesired⟩ := mem_remove.mp planned
    refine ⟨(SpecSet.mem_edited ?_).mpr ⟨member, ?_⟩, undesired⟩
    · intro other listed same
      have missing := (mem_inject.mp (adds listed)).2
      rw [same] at missing
      exact missing (Ascending.contains_of_mem member)
    · intro other listed same
      rw [eq_of_key_eq (removes listed) planned same] at listed
      exact unlisted listed

theorem inject_edited (removes : removed ⊆ (between owned desired).remove)
    (adds : added ⊆ (between owned desired).inject) :
    (between (owned.edited removed added) desired).inject =
      (between owned desired).inject.filter (· ∉ added) := by
  apply Ascending.toList_eq_of_sublist List.filter_sublist
  intro spec
  show spec ∈ (between (owned.edited removed added) desired).inject ↔
    spec ∈ (between owned desired).inject.filter (· ∉ added)
  rw [mem_inject, List.mem_filter, decide_eq_true_eq, SpecSet.contains_edited]
  constructor
  · intro still
    obtain ⟨member, absent⟩ := still
    obtain ⟨unadded, gone⟩ := not_or.mp absent
    refine ⟨mem_inject.mpr ⟨member, fun own => gone ⟨own, ?_⟩⟩, ?_⟩
    · intro other listed same
      have undesired := (mem_remove.mp (removes listed)).2
      rw [same] at undesired
      exact undesired (Ascending.contains_of_mem member)
    · exact fun listed => unadded ⟨spec, listed, rfl⟩
  · intro left
    obtain ⟨planned, unlisted⟩ := left
    obtain ⟨member, missing⟩ := mem_inject.mp planned
    refine ⟨member, not_or.mpr ⟨?_, fun own => missing own.1⟩⟩
    intro listed
    obtain ⟨other, listed, same⟩ := listed
    rw [eq_of_key_eq (adds listed) planned same] at listed
    exact unlisted listed

/-- What is left of a plan is the plan from where its edits have led so far. -/
theorem between_edited (removes : removed ⊆ (between owned desired).remove)
    (adds : added ⊆ (between owned desired).inject) :
    between (owned.edited removed added) desired =
      ⟨(between owned desired).remove.filter (· ∉ removed),
        (between owned desired).inject.filter (· ∉ added)⟩ := by
  rw [← remove_edited removes adds, ← inject_edited removes adds]

end Rest

/-- The planned edits are the least that lead from the owned specs to the
desired ones.  They are listed in ascending order and do not overlap; made in
any order they lead there, and whatever leads there makes all of them.  None are
planned just if the desired specs are owned already, and after some of the edits
the rest of them is planned. -/
theorem least_edits (owned desired : SpecSet) :
    let plan := between owned desired
    (plan.remove.Pairwise (·.standing < ·.standing) ∧
      plan.inject.Pairwise (·.standing < ·.standing)) ∧
    ((∀ spec ∈ plan.remove, spec ∈ owned.toList ∧
        ∀ other ∈ plan.inject, spec.same other = false) ∧
      ∀ spec ∈ plan.inject, spec ∈ desired.toList ∧
        ∀ other ∈ owned.toList, spec.same other = false) ∧
    (∀ removed added, removed.Perm plan.remove → added.Perm plan.inject →
      (owned.edited removed added).keys = desired.keys) ∧
    (∀ removed added, (owned.edited removed added).keys = desired.keys →
      (∀ spec ∈ plan.remove, ∃ other ∈ removed, other.same spec = true) ∧
        ∀ spec ∈ plan.inject, ∃ other ∈ added, other.same spec = true) ∧
    (plan.isEmpty = true ↔ owned.keys = desired.keys) ∧
    ∀ removed added, removed ⊆ plan.remove → added ⊆ plan.inject →
      between (owned.edited removed added) desired =
        ⟨plan.remove.filter (· ∉ removed), plan.inject.filter (· ∉ added)⟩ := by
  intro plan
  refine ⟨⟨standing_ascending _, standing_ascending _⟩, ⟨?_, ?_⟩, ?_, ?_,
    isEmpty_iff, ?_⟩
  · intro spec removal
    obtain ⟨member, undesired⟩ := mem_remove.mp removal
    refine ⟨member, fun other addition => decide_eq_false fun same =>
      undesired ?_⟩
    rw [same]
    exact Ascending.contains_of_mem (mem_inject.mp addition).1
  · intro spec addition
    obtain ⟨member, missing⟩ := mem_inject.mp addition
    refine ⟨member, fun other own => decide_eq_false fun same => missing ?_⟩
    rw [same]
    exact Ascending.contains_of_mem own
  · intro removed added removes adds
    exact edited_keys (fun _ => removes.mem_iff) (fun _ => adds.mem_iff)
  · intro removed added reached
    simp only [SectionSpec.same, decide_eq_true_eq]
    exact planned_of_edited reached
  · intro removed added removes adds
    exact between_edited removes adds

/-- A zero that is owned with one sign is not planned when it is desired with
the other, and after one of two removals the other one and the addition are
planned. -/
theorem least_edits_zeros :
    let zero : SectionSpec := ⟨"iron", .ofParts false 0⟩
    let negativeZero : SectionSpec := ⟨"iron", .ofParts true 0⟩
    let unnamed : SectionSpec := ⟨"", .negativeInfinity⟩
    let numberless : SectionSpec := ⟨"iron", .nan⟩
    let endless : SectionSpec := ⟨"iron", .infinity⟩
    let owned : SpecSet := .ofList [numberless, negativeZero, unnamed]
    let desired : SpecSet := .ofList [endless, zero]
    [numberless, unnamed].Perm (between owned desired).remove ∧
      (owned.edited [numberless, unnamed] [endless]).keys = desired.keys ∧
      between (owned.edited [numberless] []) desired =
        ⟨[unnamed], [endless]⟩ := by
  intro zero negativeZero unnamed numberless endless owned desired
  obtain ⟨_, _, anyOrder, _, _, rest⟩ := least_edits owned desired
  have removals :
      [numberless, unnamed].Perm (between owned desired).remove := by
        decide +kernel
  have additions : [endless].Perm (between owned desired).inject := by
    decide +kernel
  refine ⟨removals, anyOrder _ _ removals additions, ?_⟩
  rw [rest [numberless] [] (by decide +kernel) (List.nil_subset _)]
  decide +kernel

end EditPlan

end CircuitSections
