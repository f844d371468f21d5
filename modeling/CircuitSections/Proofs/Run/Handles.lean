import CircuitSections.Proofs.Run.Memory
import Mathlib.Data.List.Basic
import Mathlib.Data.List.Nodup

/-!
# Handles

The sections of a run get the handles 0, 1, 2 and so on, whoever makes them and
on whichever target.  The counter starts over behind the last 64-bit number, so
a handle names one section for good only as long as a run makes fewer sections
than that.
-/

namespace CircuitSections

/-- The section that was put on the host, and by whom. -/
def Event.creation? : Event → Option (Maker × HostSection)
  | .created maker placed => some (maker, placed)
  | _ => none

/-- All sections that were put on the host, the earliest first. -/
def creations (log : List Event) : List (Maker × HostSection) :=
  log.filterMap Event.creation?

/-- The handles have not come round yet. -/
def Few (log : List Event) : Prop := (creations log).length < UInt64.size

@[simp]
theorem creations_append (earlier later : List Event) :
    creations (earlier ++ later) = creations earlier ++ creations later :=
  List.filterMap_append

theorem mem_creations {log : List Event} {maker : Maker}
    {placed : HostSection} :
    (maker, placed) ∈ creations log ↔ Event.created maker placed ∈ log := by
  simp only [creations, List.mem_filterMap]
  constructor
  · intro listed
    obtain ⟨event, member, created⟩ := listed
    cases event with
    | created other otherPlaced =>
        simp only [Event.creation?, Option.some.injEq, Prod.mk.injEq] at created
        obtain ⟨rfl, rfl⟩ := created
        exact member
    | cleared _ => cases created
    | ruled _ => cases created
    | passed _ => cases created
  · intro member
    exact ⟨_, member, rfl⟩

theorem Few.of_earlier {log later : List Event} (few : Few later)
    (earlier : log <+: later) :
    Few log := by
  obtain ⟨rest, rfl⟩ := earlier
  rw [Few, creations_append, List.length_append] at few
  exact Nat.lt_of_le_of_lt (Nat.le_add_right _ _) few

/-- The handles of the sections made so far are the first numbers, the next
handle is the number behind them, and the host carries nothing that was not
made. -/
structure Numbered (host : MemoryHost) (log : List Event) : Prop where
  next : host.nextHandle = UInt64.ofNat (creations log).length
  handles : (creations log).map (fun creation => creation.2.handle) =
    (List.range (creations log).length).map fun n => ⟨UInt64.ofNat n⟩
  made : ∀ placed, host.Carries placed → ∃ maker,
    Event.created maker placed ∈ log

namespace Numbered

variable {host host' : MemoryHost} {log : List Event}

theorem start : Numbered .empty [] where
  next := rfl
  handles := rfl
  made _ carried := by
    obtain ⟨_, found, _⟩ := carried
    cases found

/-- Numbers are kept where nothing is made, whatever disappears. -/
theorem of_fewer {log' : List Event} (numbered : Numbered host log)
    (next : host'.nextHandle = host.nextHandle)
    (same : creations log' = creations log)
    (kept : ∀ placed, host'.Carries placed → host.Carries placed) :
      Numbered host' log' where
  next := by rw [next, same, numbered.next]
  handles := by rw [same, numbered.handles]
  made placed carried := by
    obtain ⟨maker, created⟩ := numbered.made placed (kept placed carried)
    exact ⟨maker, mem_creations.mp (same ▸ mem_creations.mpr created)⟩

theorem create (numbered : Numbered host log) {target : TargetId}
    {state : Target} (found : host.targets target = some state)
    (spec : SectionSpec) (maker : Maker) :
    Numbered (host.create target state spec).2
      (log ++ [.created maker ⟨target, ⟨host.nextHandle⟩, spec⟩]) where
  next := by
    have stepped : (host.create target state spec).2.nextHandle =
        host.nextHandle + 1 := rfl
    rw [stepped, numbered.next, creations_append, List.length_append]
    simp [creations, Event.creation?, UInt64.ofNat_add]
  handles := by
    have last :
        creations [Event.created maker ⟨target, ⟨host.nextHandle⟩, spec⟩] =
          [(maker, ⟨target, ⟨host.nextHandle⟩, spec⟩)] := rfl
    rw [creations_append, last, List.map_append, List.length_append,
      numbered.handles, List.length_singleton, List.range_succ,
      List.map_append, numbered.next]
    rfl
  made placed carried := by
    rcases (MemoryHost.carries_create found).mp carried with new | ⟨old, _⟩
    · exact ⟨maker, by simp [new]⟩
    · obtain ⟨other, created⟩ := numbered.made placed old
      exact ⟨other, List.mem_append_left _ created⟩

theorem handles_ascending (numbered : Numbered host log) (few : Few log) :
    ((creations log).map fun creation => creation.2.handle).Pairwise
      fun a b => compare a b = .lt := by
  rw [numbered.handles, List.pairwise_map]
  refine List.pairwise_lt_range.imp_of_mem ?_
  intro m n mListed nListed less
  have mSmall : m < UInt64.size := Nat.lt_trans (List.mem_range.mp mListed) few
  have nSmall : n < UInt64.size := Nat.lt_trans (List.mem_range.mp nListed) few
  have below : UInt64.ofNat m < UInt64.ofNat n := by
    rw [UInt64.lt_iff_toNat_lt, UInt64.toNat_ofNat_of_lt' mSmall,
      UInt64.toNat_ofNat_of_lt' nSmall]
    exact less
  simp [compare, compareOn, compareOfLessAndEq, below]

theorem handles_nodup (numbered : Numbered host log) (few : Few log) :
    ((creations log).map fun creation => creation.2.handle).Nodup := by
  refine (numbered.handles_ascending few).imp ?_
  rintro a _ below rfl
  simp at below

/-- While sections are few, a handle tells its section and who made it. -/
theorem unique (numbered : Numbered host log) (few : Few log)
    {maker other : Maker} {a b : HostSection}
    (left : Event.created maker a ∈ log) (right : Event.created other b ∈ log)
    (same : a.handle = b.handle) : maker = other ∧ a = b := by
  have equal := List.inj_on_of_nodup_map (numbered.handles_nodup few)
    (mem_creations.mpr left)
    (mem_creations.mpr right) same
  exact Prod.mk.inj equal

theorem next_toNat (numbered : Numbered host log) (few : Few log) :
    host.nextHandle.toNat = (creations log).length := by
  rw [numbered.next]
  exact UInt64.toNat_ofNat_of_lt' few

theorem below_next (numbered : Numbered host log) (few : Few log)
    {maker : Maker} {placed : HostSection}
    (created : Event.created maker placed ∈ log) :
    placed.handle.number.toNat < host.nextHandle.toNat := by
  have listed : placed.handle ∈ (creations log).map fun creation =>
      creation.2.handle :=
    List.mem_map.mpr ⟨_, mem_creations.mpr created, rfl⟩
  rw [numbered.handles] at listed
  obtain ⟨n, small, same⟩ := List.mem_map.mp listed
  have less := List.mem_range.mp small
  rw [numbered.next_toNat few, ← same]
  exact (UInt64.toNat_ofNat_of_lt' (Nat.lt_trans less few)).symm ▸ less

theorem fresh (numbered : Numbered host log) (few : Few log) {maker : Maker}
    {placed : HostSection} (created : Event.created maker placed ∈ log) :
    placed.handle ≠ ⟨host.nextHandle⟩ := by
  intro same
  have below := numbered.below_next few created
  rw [same] at below
  exact Nat.lt_irrefl _ below

end Numbered

end CircuitSections
