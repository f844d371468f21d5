import CircuitSections.Proofs.Tracking.Scan

/-!
# The map behind the ledger

A slot of the ledger carries the proof that its entry stands where it belongs.
Here is a plain map instead, in which an entry may stand under any target and
spec: a new entry takes the place of the old one under the old key, and entries
of a kind are dropped by collecting their keys first and removing these one
after the other.  `Ledger.toMap_performAll` is the main statement: operations in
any order lead to the map of a ledger and hand back the same.
-/

namespace CircuitSections

/-- An entry and the target and spec under which it is kept. -/
structure KeyedEntry where
  target : TargetId
  spec : SectionSpec
  entry : TrackedSection
  deriving DecidableEq

namespace KeyedEntry

def key (kept : KeyedEntry) : SlotKey := ⟨kept.target, kept.spec.key⟩

/-- Whether keys and entries are the same; their specs are compared as such. -/
def same (a b : KeyedEntry) : Bool :=
  a.target = b.target && a.spec.same b.spec && a.entry.same b.entry

end KeyedEntry

/-- Entries under their keys. -/
abbrev EntryMap := Ascending KeyedEntry.key

namespace EntryMap

/-- What is kept of an entry that is put under a key: a key that is there
already stays. -/
def keep (map : EntryMap) (target : TargetId) (spec : SectionSpec)
    (entry : TrackedSection) :
    KeyedEntry :=
  match map.find? ⟨target, spec.key⟩ with
  | none => ⟨target, spec, entry⟩
  | some kept => { kept with entry }

/-- Puts an entry under a key, and tells which one it displaced. -/
def insert (map : EntryMap) (target : TargetId) (spec : SectionSpec)
    (entry : TrackedSection) : Option TrackedSection × EntryMap :=
  ((map.find? ⟨target, spec.key⟩).map KeyedEntry.entry,
    map.put (map.keep target spec entry))

def record (map : EntryMap) (entry : TrackedSection) :
    Option TrackedSection × EntryMap :=
  map.insert entry.target entry.spec entry

def ofEntries (entries : List TrackedSection) : EntryMap :=
  entries.foldl (fun map entry => (map.record entry).2) .empty

def forget (map : EntryMap) (target : TargetId) (spec : SectionSpec) :
    Option TrackedSection × EntryMap :=
  ((map.find? ⟨target, spec.key⟩).map KeyedEntry.entry,
    map.erase ⟨target, spec.key⟩)

/-- Forgets what is under each of several keys, one after the other. -/
def forgetEach : List (TargetId × SectionSpec) → EntryMap →
    List TrackedSection × EntryMap
  | [], map => ([], map)
  | (target, spec) :: rest, map =>
    let (first, map) := map.forget target spec
    let (others, map) := forgetEach rest map
    (first.toList ++ others, map)

/-- Drops the entries that satisfy a test: first their keys are collected. -/
def drain (map : EntryMap) (dropped : TrackedSection → Bool) :
    List TrackedSection × EntryMap :=
  forgetEach ((map.toList.filter fun kept => dropped kept.entry).map
    fun kept => (kept.target, kept.spec)) map

/-- Keys of the map that differ are forgotten with the entries that are under
them, and nothing else is. -/
theorem forgetEach_spec {listed : List KeyedEntry}
    (apart : listed.Pairwise fun a b => a.key ≠ b.key) {map : EntryMap}
    (there : ∀ kept ∈ listed, kept ∈ map.toList) :
    (forgetEach (listed.map fun kept => (kept.target, kept.spec)) map).1 =
        listed.map KeyedEntry.entry ∧
      ∀ kept, kept ∈ (forgetEach
          (listed.map fun kept => (kept.target, kept.spec)) map).2.toList ↔
        kept ∈ map.toList ∧ ∀ other ∈ listed, kept.key ≠ other.key := by
  induction listed generalizing map with
  | nil => simp [forgetEach]
  | cons first rest induction =>
      obtain ⟨firstApart, restApart⟩ := List.pairwise_cons.mp apart
      have found : map.find? first.key = some first :=
        Ascending.find?_key (there first List.mem_cons_self)
      have stays : ∀ kept ∈ rest, kept ∈ (map.erase first.key).toList := by
        intro kept member
        apply Ascending.mem_erase.mpr
        exact ⟨there kept (List.mem_cons_of_mem first member),
          Ne.symm (firstApart kept member)⟩
      obtain ⟨answers, left⟩ := induction restApart stays
      constructor
      · show ((map.find? first.key).map KeyedEntry.entry).toList ++ _ = _
        rw [found]
        exact congrArg (first.entry :: ·) answers
      · intro kept
        refine (left kept).trans ?_
        rw [Ascending.mem_erase, List.forall_mem_cons, and_assoc]

/-- To remove the collected keys one by one is to filter the map. -/
theorem drain_eq (map : EntryMap) (dropped : TrackedSection → Bool) :
    map.drain dropped =
      ((map.toList.filter fun kept => dropped kept.entry).map KeyedEntry.entry,
        map.filter fun kept => !dropped kept.entry) := by
  have apart : (map.toList.filter fun kept => dropped kept.entry).Pairwise
      fun a b => a.key ≠ b.key := map.keys_apart.sublist List.filter_sublist
  obtain ⟨answers, left⟩ :=
    forgetEach_spec apart fun kept member => List.mem_of_mem_filter member
  apply Prod.ext answers
  apply Ascending.ext_mem
  intro kept
  refine (left kept).trans ?_
  simp only [Ascending.filter, List.mem_filter, Bool.not_eq_true']
  refine and_congr_right fun member => ?_
  constructor
  · intro others
    apply eq_false_of_ne_true
    intro matching
    exact others kept ⟨member, matching⟩ rfl
  · intro kind other both same
    rw [Ascending.eq_of_key_eq member both.1 same, both.2] at kind
    cases kind

end EntryMap

/-- An operation that changes what is tracked. -/
inductive LedgerEdit
  | record (entry : TrackedSection)
  | forget (target : TargetId) (spec : SectionSpec)
  | forgetOwnedOn (owner : CombinatorId) (target : TargetId)
  | forgetTarget (target : TargetId)

namespace LedgerEdit

/-- What a ledger hands back, and what becomes of it. -/
def onLedger : LedgerEdit → Ledger → List TrackedSection × Ledger
  | record entry, ledger =>
    ((ledger.record entry).1.toList, (ledger.record entry).2)
  | forget target spec, ledger =>
    ((ledger.forget target spec).1.toList, (ledger.forget target spec).2)
  | forgetOwnedOn owner target, ledger => ledger.forgetOwnedOn owner target
  | forgetTarget target, ledger => ledger.forgetTarget target

/-- What a map hands back, and what becomes of it. -/
def onMap : LedgerEdit → EntryMap → List TrackedSection × EntryMap
  | record entry, map => ((map.record entry).1.toList, (map.record entry).2)
  | forget target spec, map =>
    ((map.forget target spec).1.toList, (map.forget target spec).2)
  | forgetOwnedOn owner target, map =>
    map.drain fun entry => entry.owner = owner && entry.target = target
  | forgetTarget target, map => map.drain fun entry => entry.target = target

/-- What operations hand back one after the other, and what becomes of all. -/
def performAll {σ : Type} (perform : LedgerEdit → σ → List TrackedSection × σ) :
    List LedgerEdit → σ → List (List TrackedSection) × σ
  | [], state => ([], state)
  | edit :: rest, state =>
    let (answer, state) := perform edit state
    let (answers, state) := performAll perform rest state
    (answer :: answers, state)

end LedgerEdit

/-- The slot's spec in its first spelling, and the entry under it. -/
def LedgerSlot.keyed (slot : LedgerSlot) : KeyedEntry :=
  ⟨slot.tracked.target, slot.spec, slot.tracked⟩

theorem LedgerSlot.key_keyed (slot : LedgerSlot) : slot.keyed.key = slot.key :=
  congrArg (SlotKey.mk slot.tracked.target) slot.agrees

namespace Ledger

/-- The entries of the ledger under their keys. -/
def toMap (ledger : Ledger) : EntryMap where
  toList := ledger.slots.toList.map LedgerSlot.keyed
  ascending := by
    apply List.pairwise_map.mpr
    simp only [LedgerSlot.key_keyed]
    exact ledger.slots.ascending

theorem find?_toMap (ledger : Ledger) (place : SlotKey) :
    ledger.toMap.find? place =
      (ledger.slots.find? place).map LedgerSlot.keyed := by
  simp only [Ascending.find?, toMap, List.find?_map, Function.comp_def,
    LedgerSlot.key_keyed]

theorem get?_eq_find?_toMap (ledger : Ledger) (target : TargetId)
    (spec : SectionSpec) :
    ledger.get? target spec =
      (ledger.toMap.find? ⟨target, spec.key⟩).map KeyedEntry.entry := by
  rw [find?_toMap, Option.map_map, get?]
  rfl

theorem toMap_put (ledger : Ledger) (slot : LedgerSlot) :
    (⟨ledger.slots.put slot⟩ : Ledger).toMap = ledger.toMap.put slot.keyed := by
  apply Ascending.ext_find?
  intro place
  rw [find?_toMap, Ascending.find?_put, Ascending.find?_put,
    LedgerSlot.key_keyed, find?_toMap]
  split
  · rfl
  · rfl

/-- The spelling that a ledger finds at a place stays, as the key of its map
does. -/
theorem keyed_slotFor (ledger : Ledger) (entry : TrackedSection) :
    (ledger.slotFor entry).keyed =
      ledger.toMap.keep entry.target entry.spec entry := by
  have there : ledger.toMap.find? ⟨entry.target, entry.spec.key⟩ =
      (ledger.slots.find? entry.place).map LedgerSlot.keyed :=
        ledger.find?_toMap entry.place
  rw [EntryMap.keep, there]
  unfold slotFor
  split
  next free =>
    rw [free]
    rfl
  next slot found =>
    have place : slot.key = entry.place :=
      Std.LawfulEqOrd.eq_of_compare (Ascending.find?_eq_some_iff.mp found).2
    have target : slot.tracked.target = entry.target :=
      congrArg SlotKey.target place
    change KeyedEntry.mk entry.target slot.spec entry = _
    rw [found]
    exact congrArg (KeyedEntry.mk · slot.spec entry) target.symm

theorem toMap_record (ledger : Ledger) (entry : TrackedSection) :
    ledger.toMap.record entry =
      ((ledger.record entry).1, (ledger.record entry).2.toMap) := by
  refine Prod.ext (ledger.get?_eq_find?_toMap entry.target entry.spec).symm ?_
  show ledger.toMap.put (ledger.toMap.keep entry.target entry.spec entry) = _
  rw [← keyed_slotFor, ← toMap_put]
  rfl

theorem toMap_forget (ledger : Ledger) (target : TargetId)
    (spec : SectionSpec) :
    ledger.toMap.forget target spec =
      ((ledger.forget target spec).1, (ledger.forget target spec).2.toMap) := by
  refine Prod.ext (ledger.get?_eq_find?_toMap target spec).symm ?_
  apply Ascending.ext_find?
  intro place
  simp only [EntryMap.forget, forget, find?_toMap, Ascending.find?_erase]
  split
  · rfl
  · rfl

theorem toMap_drain (ledger : Ledger) (dropped : TrackedSection → Bool) :
    ledger.toMap.drain dropped =
      ((ledger.drain dropped).1, (ledger.drain dropped).2.toMap) := by
  rw [EntryMap.drain_eq]
  apply Prod.ext
  · show ((ledger.slots.toList.map LedgerSlot.keyed).filter _).map
      KeyedEntry.entry =
        (ledger.slots.toList.map LedgerSlot.tracked).filter dropped
    rw [List.filter_map, List.map_map, List.filter_map]
    rfl
  · apply Ascending.ext
    exact List.filter_map

theorem toMap_perform (edit : LedgerEdit) (ledger : Ledger) :
    edit.onMap ledger.toMap =
      ((edit.onLedger ledger).1, (edit.onLedger ledger).2.toMap) := by
  cases edit with
  | record entry =>
      simp only [LedgerEdit.onMap, LedgerEdit.onLedger, toMap_record]
  | forget target spec =>
      simp only [LedgerEdit.onMap, LedgerEdit.onLedger, toMap_forget]
  | forgetOwnedOn owner target =>
      exact ledger.toMap_drain fun entry =>
        entry.owner = owner && entry.target = target
  | forgetTarget target =>
      exact ledger.toMap_drain fun entry => entry.target = target

/-- Operations in any order lead to the map of a ledger, and hand back the
same. -/
theorem toMap_performAll (edits : List LedgerEdit) (ledger : Ledger) :
    LedgerEdit.performAll LedgerEdit.onMap edits ledger.toMap =
      ((LedgerEdit.performAll LedgerEdit.onLedger edits ledger).1,
        (LedgerEdit.performAll LedgerEdit.onLedger edits ledger).2.toMap) := by
  induction edits generalizing ledger with
  | nil => rfl
  | cons edit rest induction =>
      simp only [LedgerEdit.performAll, toMap_perform, induction]

theorem toMap_ofEntries (entries : List TrackedSection) :
    EntryMap.ofEntries entries = (ofEntries entries).toMap := by
  have folded (ledger : Ledger) :
      entries.foldl (fun map entry => (map.record entry).2) ledger.toMap =
        (entries.foldl (fun ledger entry => (ledger.record entry).2)
          ledger).toMap := by
    induction entries generalizing ledger with
    | nil => rfl
    | cons first rest induction =>
        rw [List.foldl_cons, toMap_record, induction, List.foldl_cons]
  exact folded empty

/-- An entry of the map of a ledger stands under its own target and an equal
spec. -/
theorem entry_of_mem_toMap {ledger : Ledger} {kept : KeyedEntry}
    (member : kept ∈ ledger.toMap.toList) :
    kept.entry.target = kept.target ∧
      kept.entry.spec.same kept.spec = true := by
  obtain ⟨slot, _, rfl⟩ := List.mem_map.mp member
  exact ⟨rfl, decide_eq_true slot.agrees.symm⟩

/-! ### The last entry for a key -/

theorem get?_ofEntries (entries : List TrackedSection) (target : TargetId)
    (spec : SectionSpec) :
    (ofEntries entries).get? target spec =
      (entries.filter fun entry =>
        entry.target = target && entry.spec.same spec).getLast? := by
  have folded (ledger : Ledger) :
      (entries.foldl (fun ledger entry => (ledger.record entry).2) ledger).get?
        target spec =
          (entries.filter fun entry =>
            entry.target = target && entry.spec.same spec).getLast?.or
            (ledger.get? target spec) := by
    induction entries generalizing ledger with
    | nil => rfl
    | cons first rest induction =>
        have place : first.place = ⟨target, spec.key⟩ ↔
            (first.target = target && first.spec.same spec) = true := by
          simp [TrackedSection.place, SectionSpec.same]
        rw [List.foldl_cons, induction, get?_record, List.filter_cons]
        by_cases here : first.place = ⟨target, spec.key⟩
        · rw [if_pos here, if_pos (place.mp here), List.getLast?_cons]
          cases (rest.filter _).getLast? with
          | none => rfl
          | some last => rfl
        · rw [if_neg here, if_neg (fun matching => here (place.mpr matching))]
  rw [ofEntries, folded]
  exact Option.or_none

/-! ### Loading what was saved -/

/-- Slots with one entry are the same, whatever the spelling of their keys. -/
theorem same_keyed {a b : LedgerSlot} (entries : a.tracked = b.tracked) :
    a.keyed.same b.keyed = true := by
  have specs : a.spec.key = b.spec.key := by rw [a.agrees, b.agrees, entries]
  simp [KeyedEntry.same, LedgerSlot.keyed, TrackedSection.same,
    SectionSpec.same, entries, specs]

theorem same_ofEntries (ledger : Ledger) :
    List.Forall₂ (fun a b => a.same b = true)
      (ofEntries ledger.entries).toMap.toList
      ledger.toMap.toList := by
  have entries : List.Forall₂ Eq
      ((ofEntries ledger.entries).slots.toList.map LedgerSlot.tracked)
      (ledger.slots.toList.map LedgerSlot.tracked) := by
    rw [List.forall₂_eq_eq_eq]
    exact ledger.entries_ofEntries
  rw [List.forall₂_map_left_iff, List.forall₂_map_right_iff] at entries
  refine List.forall₂_map_left_iff.mpr
    (List.forall₂_map_right_iff.mpr (entries.imp ?_))
  exact fun _ _ => same_keyed

/-! ### What operations take out -/

theorem record_eq_some_iff {ledger : Ledger} {new old : TrackedSection} :
    (ledger.record new).1 = some old ↔
      old ∈ ledger.entries ∧ old.target = new.target ∧
        old.spec.same new.spec = true := by
  rw [SectionSpec.same, decide_eq_true_eq]
  exact get?_eq_some_iff

/-- A new entry takes the place of the one that it displaces, and of no
other. -/
theorem mem_record_iff {ledger : Ledger} {new old : TrackedSection} :
    old ∈ (ledger.record new).2.entries ↔
      old = new ∨ old ∈ ledger.entries ∧ (ledger.record new).1 ≠ some old := by
  rw [mem_record]
  refine or_congr_right (and_congr_right fun member => ?_)
  rw [ne_eq, ne_eq, record_eq_some_iff, SectionSpec.same, decide_eq_true_eq]
  simp only [member, true_and, TrackedSection.place, SlotKey.mk.injEq]

theorem toMap_drain_left (ledger : Ledger) (dropped : TrackedSection → Bool) :
    (ledger.drain dropped).2.toMap.toList =
      ledger.toMap.toList.filter fun kept => !dropped kept.entry := by
  have drained := congrArg Prod.snd (ledger.toMap_drain dropped)
  rw [EntryMap.drain_eq] at drained
  exact (congrArg Ascending.toList drained).symm

theorem contains_ownedTargets_iff_ownedSpecs {ledger : Ledger}
    {owner : CombinatorId} {target : TargetId} :
    (ledger.ownedTargets owner).contains target = true ↔
      ledger.ownedSpecs owner target ≠ .empty := by
  rw [contains_ownedTargets_iff, ne_eq, ownedSpecs_eq_empty_iff, not_forall]
  simp only [not_not]

theorem entries_standing (ledger : Ledger) :
    ledger.entries.Pairwise fun a b => a.spec.standingOn a.target <
      b.spec.standingOn b.target :=
  ledger.entries_ascending.imp SlotKey.compare_eq_lt_iff.mp

/-- The ledger is a map in which the last writer wins, and it survives a save.
What a list of entries leads to holds for each target and spec the last of them.
Operations in any order do to the ledger what they do to a plain map, in which
each entry then stands under its own target and the same spec.  In every ledger
the entries ascend, and loading them brings back the same; what recording,
forgetting and dropping hand back is what they take out, and no other entry
goes; and an owner has a target just if it has a spec there. -/
theorem last_writer_wins :
    (∀ entries : List TrackedSection,
      EntryMap.ofEntries entries = (ofEntries entries).toMap ∧
      ∀ (target : TargetId) (spec : SectionSpec),
        (ofEntries entries).get? target spec =
          (entries.filter fun entry =>
            entry.target = target && entry.spec.same spec).getLast?) ∧
    (∀ edits : List LedgerEdit,
      let mapped := LedgerEdit.performAll LedgerEdit.onMap edits .empty
      let reached := LedgerEdit.performAll LedgerEdit.onLedger edits .empty
      mapped = (reached.1, reached.2.toMap) ∧
      ∀ kept ∈ mapped.2.toList,
        kept.entry.target = kept.target ∧
          kept.entry.spec.same kept.spec = true) ∧
    ∀ ledger : Ledger,
      (ledger.entries.Pairwise fun a b => a.spec.standingOn a.target <
        b.spec.standingOn b.target) ∧
      ((ofEntries ledger.entries).entries = ledger.entries ∧
        List.Forall₂ (fun a b => a.same b = true)
          (ofEntries ledger.entries).toMap.toList
          ledger.toMap.toList) ∧
      (∀ new old : TrackedSection,
        ((ledger.record new).1 = some old ↔
          old ∈ ledger.entries ∧ old.target = new.target ∧
            old.spec.same new.spec = true) ∧
        (old ∈ (ledger.record new).2.entries ↔
          old = new ∨ old ∈ ledger.entries ∧
            (ledger.record new).1 ≠ some old)) ∧
      (∀ (owner : CombinatorId) (target : TargetId),
        let own : TrackedSection → Bool := fun entry =>
          entry.owner = owner && entry.target = target
        (ledger.forgetOwnedOn owner target).1 = ledger.entries.filter own ∧
        (ledger.forgetOwnedOn owner target).2.toMap.toList =
          ledger.toMap.toList.filter fun kept => !own kept.entry) ∧
      (∀ target : TargetId,
        let there : TrackedSection → Bool := fun entry => entry.target = target
        (ledger.forgetTarget target).1 = ledger.entries.filter there ∧
        (ledger.forgetTarget target).2.toMap.toList =
          ledger.toMap.toList.filter fun kept => !there kept.entry) ∧
      ∀ (owner : CombinatorId) (target : TargetId),
        (ledger.ownedTargets owner).contains target = true ↔
          ledger.ownedSpecs owner target ≠ .empty := by
  refine ⟨?_, ?_, ?_⟩
  · exact fun entries => ⟨toMap_ofEntries entries, get?_ofEntries entries⟩
  · intro edits
    have reached := toMap_performAll edits empty
    refine ⟨reached, fun kept member => ?_⟩
    rw [show (Ascending.empty : EntryMap) = empty.toMap from rfl,
      reached] at member
    exact entry_of_mem_toMap member
  · intro ledger
    refine ⟨ledger.entries_standing,
      ⟨ledger.entries_ofEntries, ledger.same_ofEntries⟩, ?_, ?_, ?_,
      fun owner target => contains_ownedTargets_iff_ownedSpecs⟩
    · exact fun new old => ⟨record_eq_some_iff, mem_record_iff⟩
    · exact fun owner target => ⟨rfl, ledger.toMap_drain_left _⟩
    · exact fun target => ⟨rfl, ledger.toMap_drain_left _⟩

/-- Zeros of either sign have one key, and the first of them stays. -/
example :
    let zero : SectionSpec := ⟨"", .ofParts false 0⟩
    let negative : SectionSpec := ⟨"", .ofParts true 0⟩
    let first : TrackedSection := ⟨⟨1⟩, zero, ⟨7⟩, ⟨0⟩, 5⟩
    let second : TrackedSection := ⟨⟨1⟩, negative, ⟨8⟩, ⟨1⟩, 6⟩
    (ofEntries [first, second]).toMap.toList = [⟨⟨1⟩, zero, second⟩] := by
  decide +kernel

end Ledger

end CircuitSections
