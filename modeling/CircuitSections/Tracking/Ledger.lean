import CircuitSections.Circuit.Entity
import CircuitSections.Ordered.Lookup
import CircuitSections.Section.Spec

/-!
# The ledger of tracked sections

The ledger tells which combinator placed which section on which target.  It
holds one entry for each target and spec; a new entry takes the place of the one
that was there, but the spec keeps the spelling under which it first came in.
-/

namespace CircuitSections

/-- A section that a combinator placed. -/
structure TrackedSection where
  target : TargetId
  spec : SectionSpec
  owner : CombinatorId
  handle : SectionHandle
  /-- The tick at which it was placed. -/
  injectedAt : UInt64
  deriving DecidableEq

/-- Whether two entries are the same; their specs are compared as such. -/
def TrackedSection.same (a b : TrackedSection) : Bool :=
  a.target = b.target && a.spec.same b.spec && a.owner = b.owner &&
    a.handle = b.handle &&
    a.injectedAt = b.injectedAt

/-- What tells ledger slots apart: the target, then the spec. -/
structure SlotKey where
  target : TargetId
  spec : SpecKey
  deriving DecidableEq

namespace SlotKey

instance : Ord SlotKey := ⟨compareLex (compareOn target) (compareOn spec)⟩

instance : Std.TransOrd SlotKey :=
  inferInstanceAs
    (Std.TransCmp (compareLex (compareOn target) (compareOn spec)))

instance : Std.LawfulEqOrd SlotKey where
  compare_self := Std.ReflOrd.compare_self
  eq_of_compare {a b} equal := by
    obtain ⟨targets, specs⟩ := compareLex_eq_eq.mp equal
    cases a
    cases b
    cases Std.LawfulEqOrd.eq_of_compare (α := TargetId) targets
    cases Std.LawfulEqOrd.eq_of_compare (α := SpecKey) specs
    rfl

/-- The first key that a target may have. -/
def first (target : TargetId) : SlotKey :=
  ⟨target, "", Multiplier.negativeInfinity.rank⟩

end SlotKey

/-- Where an entry stands in the ledger. -/
def TrackedSection.place (entry : TrackedSection) : SlotKey :=
  ⟨entry.target, entry.spec.key⟩

/-- A place in the ledger and what is tracked there. -/
structure LedgerSlot where
  /-- The spec in its first spelling. -/
  spec : SectionSpec
  tracked : TrackedSection
  /-- Both spellings are of the same spec. -/
  agrees : spec.key = tracked.spec.key
  deriving DecidableEq

/-- What tells the slot apart from others. -/
def LedgerSlot.key (slot : LedgerSlot) : SlotKey := slot.tracked.place

/-- All tracked sections, at most one for each target and spec. -/
structure Ledger where
  slots : Ascending LedgerSlot.key
  deriving DecidableEq

namespace Ledger

def empty : Ledger := ⟨.empty⟩

instance : Inhabited Ledger := ⟨empty⟩

/-- The tracked sections in the order of their keys. -/
def entries (ledger : Ledger) : List TrackedSection :=
  ledger.slots.toList.map LedgerSlot.tracked

def size (ledger : Ledger) : Nat := ledger.slots.size

def isEmpty (ledger : Ledger) : Bool := ledger.slots.isEmpty

/-- The section tracked for a target and spec. -/
def get? (ledger : Ledger) (target : TargetId) (spec : SectionSpec) :
    Option TrackedSection :=
  (ledger.slots.find? ⟨target, spec.key⟩).map LedgerSlot.tracked

/-- The slot that an entry takes: the spelling found at its place stays. -/
def slotFor (ledger : Ledger) (entry : TrackedSection) : LedgerSlot :=
  match found : ledger.slots.find? entry.place with
  | none => ⟨entry.spec, entry, rfl⟩
  | some slot =>
    { spec := slot.spec
      tracked := entry
      agrees := by
        have same : slot.key = entry.place :=
          Std.LawfulEqOrd.eq_of_compare (Ascending.find?_eq_some_iff.mp found).2
        exact slot.agrees.trans (congrArg SlotKey.spec same) }

/-- Tracks a section, and tells which one it displaced. -/
def record (ledger : Ledger) (entry : TrackedSection) :
    Option TrackedSection × Ledger :=
  (ledger.get? entry.target entry.spec,
    ⟨ledger.slots.put (ledger.slotFor entry)⟩)

/-- The ledger to which a list of entries leads, one recorded after the
other. -/
def ofEntries (entries : List TrackedSection) : Ledger :=
  entries.foldl (fun ledger entry => (ledger.record entry).2) empty

/-- Drops the section tracked for a target and spec, and tells what it was. -/
def forget (ledger : Ledger) (target : TargetId) (spec : SectionSpec) :
    Option TrackedSection × Ledger :=
  (ledger.get? target spec, ⟨ledger.slots.erase ⟨target, spec.key⟩⟩)

/-- Drops the tracked sections that satisfy a test, and lists them in the order
of their keys. -/
def drain (ledger : Ledger) (dropped : TrackedSection → Bool) :
    List TrackedSection × Ledger :=
  (ledger.entries.filter dropped,
    ⟨ledger.slots.filter fun slot => !dropped slot.tracked⟩)

/-- Drops what an owner has on a target. -/
def forgetOwnedOn (ledger : Ledger) (owner : CombinatorId) (target : TargetId) :
    List TrackedSection × Ledger :=
  ledger.drain fun entry => entry.owner = owner && entry.target = target

/-- Drops everything on a target, whoever owns it. -/
def forgetTarget (ledger : Ledger) (target : TargetId) :
    List TrackedSection × Ledger :=
  ledger.drain fun entry => entry.target = target

/-- The slots of one target, found from the first key that it may have. -/
def slotsOn (ledger : Ledger) (target : TargetId) : List LedgerSlot :=
  (ledger.slots.startingAt (.first target)).takeWhile fun slot =>
    slot.tracked.target = target

/-- The specs of what an owner has on a target. -/
def ownedSpecs (ledger : Ledger) (owner : CombinatorId)
    (target : TargetId) : SpecSet :=
  .ofList
    (((ledger.slotsOn target).filter fun slot => slot.tracked.owner = owner).map
      LedgerSlot.spec)

/-- The targets on which an owner has something. -/
def ownedTargets (ledger : Ledger) (owner : CombinatorId) : TargetSet :=
  .ofList
    ((ledger.entries.filter fun entry => entry.owner = owner).map
      TrackedSection.target)

/-! ### What is tracked -/

theorem get?_eq_some_iff {ledger : Ledger} {target : TargetId}
    {spec : SectionSpec} {entry : TrackedSection} :
    ledger.get? target spec = some entry ↔
      entry ∈ ledger.entries ∧ entry.target = target ∧
        entry.spec.key = spec.key := by
  simp only [get?, entries, Option.map_eq_some_iff, List.mem_map,
    Ascending.find?_eq_some_iff, Std.LawfulEqOrd.compare_eq_iff_eq,
    LedgerSlot.key, TrackedSection.place, SlotKey.mk.injEq]
  constructor
  · rintro ⟨slot, ⟨member, target, spec⟩, rfl⟩
    exact ⟨⟨slot, member, rfl⟩, target, spec⟩
  · rintro ⟨⟨slot, member, rfl⟩, target, spec⟩
    exact ⟨slot, ⟨member, target, spec⟩, rfl⟩

theorem tracked_slotFor (ledger : Ledger) (entry : TrackedSection) :
    (ledger.slotFor entry).tracked = entry := by
  unfold slotFor
  split <;> rfl

theorem get?_record (ledger : Ledger) (entry : TrackedSection)
    (target : TargetId) (spec : SectionSpec) :
    (ledger.record entry).2.get? target spec =
      if entry.place = ⟨target, spec.key⟩ then some entry
        else ledger.get? target spec := by
  simp only [get?, record, Ascending.find?_put,
    Std.LawfulEqOrd.compare_eq_iff_eq, LedgerSlot.key, tracked_slotFor]
  split
  · simp [tracked_slotFor]
  · rfl

theorem get?_forget (ledger : Ledger) (target other : TargetId)
    (spec otherSpec : SectionSpec) :
    (ledger.forget target spec).2.get? other otherSpec =
      if target = other ∧ spec.key = otherSpec.key then none
        else ledger.get? other otherSpec := by
  simp only [get?, forget, Ascending.find?_erase,
    Std.LawfulEqOrd.compare_eq_iff_eq, SlotKey.mk.injEq]
  split
  · rfl
  · rfl

end Ledger

end CircuitSections
