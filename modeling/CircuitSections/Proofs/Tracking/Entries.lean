import CircuitSections.Proofs.Ordered.Keys
import CircuitSections.Tracking.Ledger

/-!
# The entries of the ledger

Which sections are tracked after each operation of the ledger, and what an owner
has on a target.  `contains_ownedSpecs` is the main statement: the scan that
starts at the first key of a target and stops behind the last one misses no
spec.
-/

namespace CircuitSections

namespace Multiplier

theorem negativeInfinity_le (m : Multiplier) :
    negativeInfinity.rank ≤ m.rank := by
  have least : negativeInfinity.rank = -(Binary64.infinity : Int) := by decide
  rw [least, rank]
  split
  next => simp [Binary64.infinity]
  next number =>
    have bounded : m.magnitude ≤ Binary64.infinity := by
      simpa [isNaN] using number
    split <;> omega

end Multiplier

namespace SpecKey

theorem first_le (spec : SectionSpec) :
    compare spec.key ⟨"", Multiplier.negativeInfinity.rank⟩ ≠ .lt := by
  intro below
  rcases Ordering.then_eq_lt.mp below with nameBelow | ⟨_, rankBelow⟩
  · have less : spec.name < "" := compareOfLessAndEq_eq_lt.mp nameBelow
    exact List.not_lt_nil _ (String.lt_iff.mp less)
  · have less : spec.multiplier.rank < Multiplier.negativeInfinity.rank :=
      Int.compare_eq_lt.mp rankBelow
    exact absurd (Multiplier.negativeInfinity_le spec.multiplier) (by omega)

end SpecKey

/-- The first key of a target stands before all others that the target has. -/
theorem SlotKey.first_le (target : TargetId) (spec : SectionSpec) :
    compare (⟨target, spec.key⟩ : SlotKey) (first target) ≠ .lt := by
  intro below
  rcases Ordering.then_eq_lt.mp below with targetBelow | ⟨_, specBelow⟩
  · have reflexive : compare target target ≠ .lt := by simp
    exact reflexive targetBelow
  · exact SpecKey.first_le spec specBelow

theorem TargetSet.contains_ofList {targets : List TargetId}
    {target : TargetId} :
    (TargetSet.ofList targets).contains target = true ↔ target ∈ targets := by
  rw [Ascending.contains_ofList]
  simp

namespace Ledger

@[simp]
theorem entries_empty : empty.entries = [] := rfl

theorem mem_entries_iff {ledger : Ledger} {entry : TrackedSection} :
    entry ∈ ledger.entries ↔ ledger.get? entry.target entry.spec =
      some entry := by
  simp [get?_eq_some_iff]

theorem get?_eq_none_iff {ledger : Ledger} {target : TargetId}
    {spec : SectionSpec} :
    ledger.get? target spec = none ↔ ∀ entry ∈ ledger.entries, entry.place ≠
      ⟨target, spec.key⟩ := by
  rw [Option.eq_none_iff_forall_ne_some]
  simp only [ne_eq, get?_eq_some_iff, TrackedSection.place,
    SlotKey.mk.injEq, not_and]

theorem eq_of_place_eq {ledger : Ledger} {a b : TrackedSection}
    (left : a ∈ ledger.entries) (right : b ∈ ledger.entries)
    (same : a.place = b.place) : a = b := by
  obtain ⟨target, spec⟩ := SlotKey.mk.inj same
  have found : ledger.get? a.target a.spec = some b :=
    get?_eq_some_iff.mpr ⟨right, target.symm, spec.symm⟩
  rw [mem_entries_iff.mp left] at found
  exact Option.some.inj found

theorem entries_ascending (ledger : Ledger) :
    ledger.entries.Pairwise fun a b => compare a.place b.place = .lt :=
  List.pairwise_map.mpr ledger.slots.ascending

theorem entries_nodup (ledger : Ledger) : ledger.entries.Nodup := by
  refine ledger.entries_ascending.imp fun {a b} below same => ?_
  simp [same] at below

theorem mem_record {ledger : Ledger} {new entry : TrackedSection} :
    entry ∈ (ledger.record new).2.entries ↔
      entry = new ∨ entry ∈ ledger.entries ∧ entry.place ≠ new.place := by
  rw [mem_entries_iff, get?_record, mem_entries_iff]
  change (if new.place = entry.place then _ else _) = _ ↔ _
  by_cases same : new.place = entry.place
  · simp [same, eq_comm]
  · have apart : entry ≠ new := fun equal => same (equal ▸ rfl)
    simp [same, apart, Ne.symm same]

theorem mem_forget {ledger : Ledger} {target : TargetId} {spec : SectionSpec}
    {entry : TrackedSection} :
    entry ∈ (ledger.forget target spec).2.entries ↔
      entry ∈ ledger.entries ∧ entry.place ≠ ⟨target, spec.key⟩ := by
  rw [mem_entries_iff, get?_forget, mem_entries_iff]
  by_cases same : target = entry.target ∧ spec.key = entry.spec.key
  · simp [same, TrackedSection.place]
  · have apart : entry.place ≠ ⟨target, spec.key⟩ := by
      intro equal
      obtain ⟨targets, specs⟩ := SlotKey.mk.inj equal
      exact same ⟨targets.symm, specs.symm⟩
    simp [same, apart]

theorem mem_drain {ledger : Ledger} {dropped : TrackedSection → Bool}
    {entry : TrackedSection} :
    entry ∈ (ledger.drain dropped).2.entries ↔ entry ∈ ledger.entries ∧
      dropped entry = false := by
  simp only [drain, entries, Ascending.filter, List.mem_map, List.mem_filter,
    Bool.not_eq_true']
  constructor
  · intro left
    obtain ⟨slot, ⟨member, kept⟩, rfl⟩ := left
    exact ⟨⟨slot, member, rfl⟩, kept⟩
  · intro left
    obtain ⟨⟨slot, member, rfl⟩, kept⟩ := left
    exact ⟨slot, ⟨member, kept⟩, rfl⟩

theorem mem_forgetOwnedOn {ledger : Ledger} {owner : CombinatorId}
    {target : TargetId} {entry : TrackedSection} :
    entry ∈ (ledger.forgetOwnedOn owner target).2.entries ↔
      entry ∈ ledger.entries ∧
        ¬ (entry.owner = owner ∧ entry.target = target) := by
  simp [forgetOwnedOn, mem_drain]

theorem mem_forgetTarget {ledger : Ledger} {target : TargetId}
    {entry : TrackedSection} :
    entry ∈ (ledger.forgetTarget target).2.entries ↔
      entry ∈ ledger.entries ∧ entry.target ≠ target := by
  simp [forgetTarget, mem_drain]

theorem mem_of_mem_ofEntries {entries : List TrackedSection}
    {entry : TrackedSection} (member : entry ∈ (ofEntries entries).entries) :
    entry ∈ entries := by
  have folded : ∀ (rest : List TrackedSection) (ledger : Ledger),
      entry ∈
        (rest.foldl (fun ledger entry => (ledger.record entry).2)
          ledger).entries →
        entry ∈ rest ∨ entry ∈ ledger.entries := by
    intro rest
    induction rest with
    | nil => exact fun ledger kept => .inr kept
    | cons new rest induction =>
        intro ledger kept
        rcases induction _ kept with later | recorded
        · exact .inl (List.mem_cons_of_mem new later)
        · rcases mem_record.mp recorded with same | ⟨old, _⟩
          · exact .inl (same ▸ List.mem_cons_self)
          · exact .inr old
  rcases folded entries empty member with listed | none
  · exact listed
  · exact absurd none List.not_mem_nil

theorem mem_ofEntries {entries : List TrackedSection}
    (distinct : entries.Pairwise fun a b => a.place ≠ b.place)
    {entry : TrackedSection} (member : entry ∈ entries) :
    entry ∈ (ofEntries entries).entries := by
  have stays : ∀ (rest : List TrackedSection) (ledger : Ledger),
      entry ∈ ledger.entries →
      (∀ later ∈ rest, entry.place ≠ later.place) →
        entry ∈
          (rest.foldl (fun ledger entry => (ledger.record entry).2)
            ledger).entries := by
    intro rest
    induction rest with
    | nil => exact fun ledger tracked _ => tracked
    | cons first rest induction =>
        intro ledger tracked apart
        apply induction
        · exact mem_record.mpr (.inr ⟨tracked, apart first List.mem_cons_self⟩)
        · exact fun later listed =>
            apart later (List.mem_cons_of_mem first listed)
  obtain ⟨before, after, rfl⟩ := List.append_of_mem member
  obtain ⟨apart, _⟩ :=
    List.pairwise_cons.mp (List.pairwise_append.mp distinct).2.1
  rw [ofEntries, List.foldl_append, List.foldl_cons]
  exact stays after _ (mem_record.mpr (.inl rfl)) apart

theorem entries_ofEntries (ledger : Ledger) :
    (ofEntries ledger.entries).entries = ledger.entries := by
  have distinct : ledger.entries.Pairwise fun a b => a.place ≠ b.place := by
    refine ledger.entries_ascending.imp fun {a b} below same => ?_
    simp [same] at below
  have members (entry : TrackedSection) :
      entry ∈ (ofEntries ledger.entries).entries ↔ entry ∈ ledger.entries :=
    ⟨mem_of_mem_ofEntries, mem_ofEntries distinct⟩
  refine List.Perm.eq_of_pairwise ?_ (entries_ascending _)
    ledger.entries_ascending
    ((List.perm_ext_iff_of_nodup (entries_nodup _) ledger.entries_nodup).mpr
      members)
  intro a b _ _ below above
  have cycle := Std.TransCmp.lt_trans below above
  simp at cycle

theorem drain_of_none {ledger : Ledger} {dropped : TrackedSection → Bool}
    (kept : ∀ entry ∈ ledger.entries, dropped entry = false) :
    (ledger.drain dropped).2 = ledger := by
  have slots : ledger.slots.filter (fun slot => !dropped slot.tracked) =
      ledger.slots := by
    apply Ascending.ext
    refine List.filter_eq_self.mpr fun slot member => ?_
    rw [kept slot.tracked (List.mem_map.mpr ⟨slot, member, rfl⟩)]
    rfl
  rw [drain, slots]

/-! ### What an owner has -/

/-- An owner has a section with a spec of the given key on a target. -/
def Owns (ledger : Ledger) (owner : CombinatorId) (target : TargetId)
    (key : SpecKey) : Prop :=
  ∃ entry ∈ ledger.entries, entry.owner = owner ∧ entry.place = ⟨target, key⟩

instance (ledger : Ledger) (owner : CombinatorId) (target : TargetId)
    (key : SpecKey) :
    Decidable (ledger.Owns owner target key) :=
  inferInstanceAs (Decidable (∃ entry ∈ ledger.entries, _ ∧ _))

theorem owns_iff_of_get? {ledger : Ledger} {owner : CombinatorId}
    {target : TargetId} {spec : SectionSpec} {entry : TrackedSection}
    (found : ledger.get? target spec = some entry) :
    ledger.Owns owner target spec.key ↔ entry.owner = owner := by
  obtain ⟨member, targets, specs⟩ := get?_eq_some_iff.mp found
  have place : entry.place = ⟨target, spec.key⟩ := by
    rw [TrackedSection.place, targets, specs]
  constructor
  · intro owns
    obtain ⟨other, listed, owned, there⟩ := owns
    rwa [eq_of_place_eq member listed (place.trans there.symm)]
  · exact fun owned => ⟨entry, member, owned, place⟩

theorem Owns.unique {ledger : Ledger} {a b : CombinatorId} {target : TargetId}
    {key : SpecKey} (left : ledger.Owns a target key)
    (right : ledger.Owns b target key) : a = b := by
  obtain ⟨entry, member, owner, here⟩ := left
  obtain ⟨other, otherMember, otherOwner, there⟩ := right
  rw [← owner, ← otherOwner,
    eq_of_place_eq member otherMember (here.trans there.symm)]

theorem owns_forget {ledger : Ledger} {target other : TargetId}
    {spec : SectionSpec} {owner : CombinatorId} {key : SpecKey} :
    (ledger.forget target spec).2.Owns owner other key ↔
      ledger.Owns owner other key ∧ ¬ (other = target ∧ key = spec.key) := by
  simp only [Owns, mem_forget]
  constructor
  · intro owns
    obtain ⟨entry, ⟨member, elsewhere⟩, owned, place⟩ := owns
    refine ⟨⟨entry, member, owned, place⟩, ?_⟩
    intro here
    obtain ⟨rfl, rfl⟩ := here
    exact elsewhere place
  · intro owns
    obtain ⟨⟨entry, member, owned, place⟩, apart⟩ := owns
    refine ⟨entry, ⟨member, fun same => apart ?_⟩, owned, place⟩
    exact SlotKey.mk.inj (place.symm.trans same)

theorem owns_record {ledger : Ledger} {new : TrackedSection}
    {owner : CombinatorId} {target : TargetId} {key : SpecKey} :
    (ledger.record new).2.Owns owner target key ↔
      (new.owner = owner ∧ new.place = ⟨target, key⟩) ∨
        ledger.Owns owner target key ∧ new.place ≠ ⟨target, key⟩ := by
  simp only [Owns, mem_record]
  constructor
  · intro owns
    rcases owns with ⟨entry, rfl | ⟨member, elsewhere⟩, owned, place⟩
    · exact .inl ⟨owned, place⟩
    · exact .inr ⟨⟨entry, member, owned, place⟩, fun same =>
        elsewhere (place.trans same.symm)⟩
  · intro owns
    rcases owns with ⟨owned, place⟩ | ⟨⟨entry, member, owned, place⟩, elsewhere⟩
    · exact ⟨new, .inl rfl, owned, place⟩
    · exact ⟨entry,
        .inr ⟨member, fun same => elsewhere (same.symm.trans place)⟩, owned,
        place⟩

section Others

variable {ledger : Ledger} {owner other : CombinatorId} {place : TargetId}
  {key : SpecKey}

theorem owns_forget_of_ne {target : TargetId} {spec : SectionSpec}
    {entry : TrackedSection} (found : ledger.get? target spec = some entry)
    (apart : other ≠ entry.owner) :
    (ledger.forget target spec).2.Owns other place key ↔
      ledger.Owns other place key := by
  rw [owns_forget]
  refine and_iff_left_of_imp fun owns here => ?_
  obtain ⟨rfl, rfl⟩ := here
  exact apart ((owns_iff_of_get? found).mp owns).symm

theorem owns_forgetOwnedOn_of_ne {target : TargetId} (apart : other ≠ owner) :
    (ledger.forgetOwnedOn owner target).2.Owns other place key ↔
      ledger.Owns other place key := by
  simp only [Owns, mem_forgetOwnedOn]
  constructor
  · intro owns
    obtain ⟨entry, ⟨member, _⟩, rest⟩ := owns
    exact ⟨entry, member, rest⟩
  · intro owns
    obtain ⟨entry, member, owned, rest⟩ := owns
    exact ⟨entry, ⟨member, fun own => apart (owned.symm.trans own.1)⟩,
      owned, rest⟩

theorem owns_record_of_ne {new : TrackedSection}
    (free : ledger.get? new.target new.spec = none)
    (apart : other ≠ new.owner) :
    (ledger.record new).2.Owns other place key ↔
      ledger.Owns other place key := by
  rw [owns_record]
  constructor
  · rintro (⟨same, _⟩ | ⟨owns, _⟩)
    · exact absurd same.symm apart
    · exact owns
  · intro owns
    refine .inr ⟨owns, fun same => ?_⟩
    obtain ⟨entry, member, _, there⟩ := owns
    exact get?_eq_none_iff.mp free entry member (there.trans same.symm)

end Others

theorem slotsOn_eq_filter (ledger : Ledger) (target : TargetId) :
    ledger.slotsOn target =
      ledger.slots.toList.filter fun slot => slot.tracked.target = target := by
  have sorted := ledger.slots.ascending
  have skipped : ledger.slots.startingAt (.first target) =
      ledger.slots.toList.filter fun slot =>
        !(compare slot.key (.first target) == .lt) := by
    refine Ascending.dropWhile_eq_filter sorted fun a _ b _ before below => ?_
    simp only [beq_iff_eq] at below ⊢
    exact Std.TransCmp.lt_trans before below
  have closed : ∀ a ∈ ledger.slots.startingAt (.first target),
      ∀ b ∈ ledger.slots.startingAt (.first target), compare a.key b.key = .lt →
        decide (b.tracked.target = target) →
          decide (a.tracked.target = target) := by
    intro a aMember b _ before onTarget
    rw [skipped, List.mem_filter] at aMember
    simp only [decide_eq_true_eq] at onTarget ⊢
    have notBelow : compare a.tracked.target target ≠ .lt := by
      intro below
      have first : compare a.key (.first target) = .lt :=
        Ordering.then_eq_lt.mpr (.inl below)
      simp [first] at aMember
    rcases Ordering.then_eq_lt.mp before with below | ⟨same, _⟩
    · exact absurd (onTarget ▸ below) notBelow
    · exact (Std.LawfulEqOrd.eq_of_compare same).trans onTarget
  rw [slotsOn, Ascending.takeWhile_eq_filter
    (sorted.sublist (skipped ▸ List.filter_sublist))
    closed, skipped, List.filter_filter]
  refine List.filter_congr fun slot _ => ?_
  by_cases onTarget : slot.tracked.target = target
  · have notBelow := SlotKey.first_le slot.tracked.target slot.tracked.spec
    rw [onTarget] at notBelow
    simp [LedgerSlot.key, TrackedSection.place, onTarget, notBelow]
  · simp [onTarget]

theorem contains_ownedSpecs {ledger : Ledger} {owner : CombinatorId}
    {target : TargetId} {key : SpecKey} :
    (ledger.ownedSpecs owner target).contains key = true ↔
      ledger.Owns owner target key := by
  rw [ownedSpecs, Ascending.contains_ofList, slotsOn_eq_filter]
  simp only [List.mem_map, List.mem_filter, decide_eq_true_eq, Owns, entries,
    TrackedSection.place, SlotKey.mk.injEq]
  constructor
  · intro listed
    obtain ⟨spec, ⟨slot, ⟨⟨member, onTarget⟩, owned⟩, rfl⟩, same⟩ := listed
    exact ⟨slot.tracked, ⟨slot, member, rfl⟩, owned, onTarget,
      slot.agrees.symm.trans same⟩
  · intro owns
    obtain ⟨_, ⟨slot, member, rfl⟩, owned, onTarget, same⟩ := owns
    exact ⟨slot.spec, ⟨slot, ⟨⟨member, onTarget⟩, owned⟩, rfl⟩,
      slot.agrees.trans same⟩

theorem ownedSpecs_eq_empty_iff {ledger : Ledger} {owner : CombinatorId}
    {target : TargetId} :
    ledger.ownedSpecs owner target = .empty ↔
      ∀ key, ¬ ledger.Owns owner target key := by
  constructor
  · intro none key owns
    have contained := contains_ownedSpecs.mpr owns
    rw [none] at contained
    cases contained
  · intro none
    apply Ascending.eq_empty_of_contains
    intro key contained
    exact none key (contains_ownedSpecs.mp contained)

theorem contains_ownedTargets {ledger : Ledger} {owner : CombinatorId}
    {target : TargetId} :
    (ledger.ownedTargets owner).contains target = true ↔
      ∃ entry ∈ ledger.entries, entry.owner = owner ∧
        entry.target = target := by
  rw [ownedTargets, Ascending.contains_ofList]
  simp only [List.mem_map, List.mem_filter, decide_eq_true_eq]
  constructor
  · intro listed
    obtain ⟨_, ⟨entry, ⟨member, owned⟩, rfl⟩, same⟩ := listed
    exact ⟨entry, member, owned, same⟩
  · intro owned
    obtain ⟨entry, member, owned, same⟩ := owned
    exact ⟨entry.target, ⟨entry, ⟨member, owned⟩, rfl⟩, same⟩

theorem contains_ownedTargets_iff {ledger : Ledger} {owner : CombinatorId}
    {target : TargetId} :
    (ledger.ownedTargets owner).contains target = true ↔
      ∃ key, ledger.Owns owner target key := by
  rw [contains_ownedTargets]
  constructor
  · intro has
    obtain ⟨entry, member, owned, rfl⟩ := has
    exact ⟨entry.spec.key, entry, member, owned, rfl⟩
  · intro owns
    obtain ⟨key, entry, member, owned, place⟩ := owns
    exact ⟨entry, member, owned, congrArg SlotKey.target place⟩

end Ledger

end CircuitSections
