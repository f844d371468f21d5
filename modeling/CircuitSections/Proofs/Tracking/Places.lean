import CircuitSections.Proofs.Tracking.Entries
import Mathlib.Data.List.Basic

/-!
# The places of the ledger

What is found at each place after an operation of the ledger, down to the
spelling under which a spec first came in.  Ledgers that have the same at every
place are equal, so what an operation leaves at a place is all that is to be
known of it.
-/

namespace CircuitSections

namespace Ledger

/-- What is tracked at a place, and the spelling under which its spec first came
in. -/
def at? (ledger : Ledger) (place : SlotKey) :
    Option (SectionSpec × TrackedSection) :=
  (ledger.slots.find? place).map fun slot => (slot.spec, slot.tracked)

variable {ledger : Ledger} {place : SlotKey} {target : TargetId}
  {owner : CombinatorId}

theorem at?_eq_some_iff {spelling : SectionSpec} {entry : TrackedSection} :
    ledger.at? place = some (spelling, entry) ↔
      ∃ slot ∈ ledger.slots.toList, slot.key = place ∧ slot.spec = spelling ∧
        slot.tracked = entry := by
  simp only [at?, Option.map_eq_some_iff, Ascending.find?_eq_some_iff,
    Prod.mk.injEq, Std.LawfulEqOrd.compare_eq_iff_eq, and_assoc]

theorem place_of_at? {spelling : SectionSpec} {entry : TrackedSection}
    (found : ledger.at? place = some (spelling, entry)) :
    entry ∈ ledger.entries ∧ entry.place = place ∧
      spelling.key = place.spec := by
  obtain ⟨slot, member, rfl, rfl, rfl⟩ := at?_eq_some_iff.mp found
  exact ⟨List.mem_map.mpr ⟨slot, member, rfl⟩, rfl, slot.agrees⟩

theorem get?_eq_at? (ledger : Ledger) (target : TargetId) (spec : SectionSpec) :
    ledger.get? target spec = (ledger.at? ⟨target, spec.key⟩).map Prod.snd := by
  rw [get?, at?, Option.map_map]
  rfl

theorem mem_entries_iff_at? {entry : TrackedSection} :
    entry ∈ ledger.entries ↔ (ledger.at? entry.place).map Prod.snd =
      some entry := by
  rw [mem_entries_iff, get?_eq_at?]
  rfl

theorem owns_iff_at? {key : SpecKey} :
    ledger.Owns owner target key ↔
      (ledger.at? ⟨target, key⟩).any (fun slot => slot.2.owner = owner) =
        true := by
  rw [Option.any_eq_true, Owns]
  constructor
  · intro owns
    obtain ⟨entry, member, owned, place⟩ := owns
    have found := mem_entries_iff_at?.mp member
    rw [place] at found
    obtain ⟨slot, there, rfl⟩ := Option.map_eq_some_iff.mp found
    exact ⟨slot, there, by simpa using owned⟩
  · intro owns
    obtain ⟨⟨spelling, entry⟩, found, owned⟩ := owns
    obtain ⟨member, place, _⟩ := place_of_at? found
    exact ⟨entry, member, by simpa using owned, place⟩

/-! ### After an operation -/

theorem at?_record (ledger : Ledger) (new : TrackedSection) (place : SlotKey) :
    (ledger.record new).2.at? place =
      if new.place =
        place then some (((ledger.at? place).map Prod.fst).getD new.spec, new)
      else ledger.at? place := by
  have slot : (ledger.slotFor new).spec =
      ((ledger.at? new.place).map Prod.fst).getD new.spec := by
    unfold slotFor at?
    split
    next free => simp [free]
    next found => simp [found]
  simp only [at?, record, Ascending.find?_put,
    Std.LawfulEqOrd.compare_eq_iff_eq, LedgerSlot.key, tracked_slotFor]
  by_cases here : new.place = place
  · subst here
    simp only [if_true, Option.map_some, tracked_slotFor, slot, at?]
  · simp only [if_neg here]

theorem at?_forget (ledger : Ledger) (target : TargetId) (spec : SectionSpec)
    (place : SlotKey) :
    (ledger.forget target spec).2.at? place =
      if place = ⟨target, spec.key⟩ then none else ledger.at? place := by
  simp only [at?, forget, Ascending.find?_erase,
    Std.LawfulEqOrd.compare_eq_iff_eq]
  by_cases here : place = ⟨target, spec.key⟩
  · simp [here]
  · simp [here, Ne.symm here]

theorem at?_forgetOwnedOn (ledger : Ledger) (owner : CombinatorId)
    (target : TargetId) (place : SlotKey) :
    (ledger.forgetOwnedOn owner target).2.at? place =
      (ledger.at? place).filter fun slot =>
        !(slot.2.owner = owner && slot.2.target = target) := by
  simp only [at?, forgetOwnedOn, drain, Ascending.find?_filter,
    Option.filter_map]
  rfl

/-! ### What an owner has -/

theorem mem_ownedSpecs {spec : SectionSpec}
    (member : spec ∈ (ledger.ownedSpecs owner target).toList) :
    ∃ entry, ledger.at? ⟨target, spec.key⟩ = some (spec, entry) ∧
      entry.owner = owner := by
  have listed := Ascending.mem_of_mem_ofList member
  rw [slotsOn_eq_filter] at listed
  simp only [List.mem_map, List.mem_filter, decide_eq_true_eq] at listed
  obtain ⟨slot, ⟨⟨there, onTarget⟩, owned⟩, rfl⟩ := listed
  refine ⟨slot.tracked, at?_eq_some_iff.mpr ⟨slot, there, ?_, rfl, rfl⟩, owned⟩
  rw [LedgerSlot.key, TrackedSection.place, onTarget, slot.agrees]

theorem find?_ownedSpecs (ledger : Ledger) (owner : CombinatorId)
    (target : TargetId) (key : SpecKey) :
    (ledger.ownedSpecs owner target).find? key =
      ((ledger.at? ⟨target, key⟩).filter fun slot => slot.2.owner = owner).map
        Prod.fst := by
  have listed {spec : SectionSpec}
      (found : (ledger.ownedSpecs owner target).find? key = some spec) :
      ((ledger.at? ⟨target, key⟩).filter fun slot => slot.2.owner = owner).map
        Prod.fst =
          some spec := by
    obtain ⟨member, same⟩ := Ascending.find?_eq_some_iff.mp found
    obtain ⟨entry, there, owned⟩ := mem_ownedSpecs member
    rw [Std.LawfulEqOrd.eq_of_compare same] at there
    simp [there, owned]
  cases found : (ledger.ownedSpecs owner target).find? key with
  | some spec => rw [listed found]
  | none =>
      have absent : ¬ ledger.Owns owner target key := by
        rw [← contains_ownedSpecs, Ascending.contains, found]
        simp
      rw [owns_iff_at?] at absent
      cases there : ledger.at? ⟨target, key⟩ with
      | none => rfl
      | some slot =>
          rw [there] at absent
          have foreign : slot.2.owner ≠ owner := by simpa using absent
          rw [Option.filter_some_neg (by simp [foreign])]
          rfl

theorem ownedSpecs_congr {other : Ledger}
    (same : ∀ key,
      ((ledger.at? ⟨target, key⟩).filter fun slot => slot.2.owner = owner) =
        (other.at? ⟨target, key⟩).filter fun slot => slot.2.owner = owner) :
    ledger.ownedSpecs owner target = other.ownedSpecs owner target := by
  apply Ascending.ext_find?
  intro key
  rw [find?_ownedSpecs, find?_ownedSpecs, same key]

/-! ### Several specs of one target -/

/-- The entries that are tracked on a target for the given specs. -/
def entriesFor (ledger : Ledger) (target : TargetId)
    (specs : List SectionSpec) :
    List TrackedSection :=
  specs.flatMap fun spec => (ledger.get? target spec).toList

theorem entriesFor_cons (ledger : Ledger) (target : TargetId)
    (spec : SectionSpec) (rest : List SectionSpec) :
    ledger.entriesFor target (spec :: rest) =
      (ledger.get? target spec).toList ++ ledger.entriesFor target rest :=
  List.flatMap_cons

theorem entriesFor_congr {other : Ledger} {specs : List SectionSpec}
    (same : ∀ spec ∈ specs, ledger.get? target spec = other.get? target spec) :
    ledger.entriesFor target specs = other.entriesFor target specs :=
  List.flatMap_congr fun spec member => by rw [same spec member]

/-- Forgets what is tracked on a target for the given specs. -/
def forgetAll (ledger : Ledger) (target : TargetId)
    (specs : List SectionSpec) : Ledger :=
  specs.foldl (fun ledger spec => (ledger.forget target spec).2) ledger

/-- Tracks sections of the given specs, under handles from a number on. -/
def recordAll (owner : CombinatorId) (tick : UInt64) (target : TargetId) :
    List SectionSpec → UInt64 → Ledger → Ledger
  | [], _, ledger => ledger
  | spec :: rest, next, ledger =>
    recordAll owner tick target rest (next + 1)
      (ledger.record ⟨target, spec, owner, ⟨next⟩, tick⟩).2

theorem at?_forgetAll (specs : List SectionSpec) (place : SlotKey) :
    (ledger.forgetAll target specs).at? place =
      if place.target = target ∧ ∃ spec ∈ specs, spec.key = place.spec then none
      else ledger.at? place := by
  induction specs generalizing ledger with
  | nil => simp [forgetAll]
  | cons spec rest ih =>
      have step : ledger.forgetAll target (spec :: rest) =
          (ledger.forget target spec).2.forgetAll target rest := rfl
      have here : place = ⟨target, spec.key⟩ ↔ place.target = target ∧
          spec.key = place.spec := by
        cases place
        simp [eq_comm]
      rw [step, ih, at?_forget]
      simp only [List.mem_cons, exists_eq_or_imp, here]
      by_cases onTarget : place.target = target
      · by_cases first : spec.key = place.spec
        · simp [onTarget, first]
        · simp [onTarget, first]
      · simp [onTarget]

/-- What was there under a key before it was tracked anew lends its spelling. -/
theorem at?_recordAll (ledger : Ledger) {tick : UInt64}
    {specs : List SectionSpec}
    (distinct : specs.Pairwise fun a b => a.key ≠ b.key) (next : UInt64)
    (place : SlotKey) :
    ∃ handle, (recordAll owner tick target specs next ledger).at? place =
      if place.target = target then
        match specs.find? fun spec => compare spec.key place.spec == .eq with
        | none => ledger.at? place
        | some spec =>
          some (((ledger.at? place).map Prod.fst).getD spec,
            ⟨target, spec, owner, handle, tick⟩)
      else ledger.at? place := by
  induction specs generalizing ledger next with
  | nil => exact ⟨⟨next⟩, by simp [recordAll]⟩
  | cons spec rest ih =>
      obtain ⟨apart, restDistinct⟩ := List.pairwise_cons.mp distinct
      obtain ⟨handle, later⟩ :=
        ih (ledger.record ⟨target, spec, owner, ⟨next⟩, tick⟩).2
          restDistinct (next + 1)
      have placed :
          (⟨target, spec, owner, ⟨next⟩, tick⟩ : TrackedSection).place = place ↔
            place.target = target ∧ spec.key = place.spec := by
        cases place
        simp [TrackedSection.place, eq_comm]
      rw [at?_record, ite_cond_congr (propext placed)] at later
      rw [recordAll, later]
      by_cases onTarget : place.target = target
      · by_cases first : spec.key = place.spec
        · have absent :
              rest.find? (fun other => compare other.key place.spec == .eq) =
                none := by
            apply List.find?_eq_none.mpr
            intro other member
            have other : other.key ≠ place.spec := by
              rw [← first]
              exact Ne.symm (apart other member)
            simpa using other
          exact ⟨⟨next⟩, by simp [onTarget, first, absent]⟩
        · exact ⟨handle, by simp [onTarget, first]⟩
      · exact ⟨handle, by simp [onTarget]⟩

end Ledger

end CircuitSections
