import CircuitSections.Proofs.Host.Access
import Mathlib.Data.List.Basic

/-!
# What edits leave on the targets

The sections of every target after any number of edits: those of before but for
the removed ones, and behind them the added ones, under handles that were not in
use.  Edits come together as long as no later one removes what an earlier one
has added (`Edited.trans`).
-/

namespace CircuitSections

theorem Ascending.toList_put_of_above {α κ : Type} [Ord κ]
    [Std.TransOrd κ] {key : α → κ} {s : Ascending key} {a : α}
    (above : ∀ b ∈ s.toList, compare (key b) (key a) = .lt) :
    (s.put a).toList = s.toList ++ [a] := by
  show place key a s.toList = s.toList ++ [a]
  generalize s.toList = elements at above
  induction elements with
  | nil => rfl
  | cons b rest ih =>
      obtain ⟨below, later⟩ := List.forall_mem_cons.mp above
      rw [place, Std.OrientedCmp.gt_of_lt below]
      simp only [ih later, List.cons_append]

namespace MemoryHost

variable {host : MemoryHost} {target : TargetId}

/-- The sections of a target with their handles, in the order of their
creation. -/
def sectionList (host : MemoryHost) (target : TargetId) :
    List (SectionHandle × SectionSpec) :=
  match host.targets target with
  | none => []
  | some state => state.sections.toList

theorem sections_eq_map (host : MemoryHost) (target : TargetId) :
    host.sections target = (host.sectionList target).map Prod.snd := by
  unfold sections sectionList
  cases host.targets target <;> rfl

theorem mem_sectionList {entry : SectionHandle × SectionSpec} :
    entry ∈ host.sectionList target ↔
      host.Carries ⟨target, entry.1, entry.2⟩ := by
  unfold sectionList Carries
  cases host.targets target <;> simp

/-- The sections of a target are told by what they are, since they are in
ascending order. -/
theorem sectionList_eq_of_mem {list : List (SectionHandle × SectionSpec)}
    (sorted : list.Pairwise fun a b => compare a.1 b.1 = .lt)
    (members : ∀ entry, entry ∈ host.sectionList target ↔ entry ∈ list) :
    host.sectionList target = list := by
  unfold sectionList at members ⊢
  cases found : host.targets target with
  | none =>
      simp only [found, List.not_mem_nil, false_iff] at members
      exact (List.eq_nil_iff_forall_not_mem.mpr members).symm
  | some state =>
      simp only [found] at members
      let collected : SectionList := ⟨list, sorted⟩
      have equal : state.sections = collected := Ascending.ext_mem members
      exact congrArg Ascending.toList equal

/-- All handles in use are below the next one. -/
def Below (host : MemoryHost) : Prop :=
  ∀ target, ∀ entry ∈ host.sectionList target, entry.1.number.toNat <
    host.nextHandle.toNat

/-- What becomes of a host by edits that remove the sections under some handles,
as far as they are there, and add sections of some specs. -/
structure Edited (before after : MemoryHost)
    (gone : List (TargetId × SectionHandle))
    (added : List (TargetId × SectionSpec)) : Prop where
  channels : after.channels = before.channels
  wiring : after.wiring = before.wiring
  access : ∀ target, after.access target = before.access target
  next : after.nextHandle.toNat = before.nextHandle.toNat + added.length
  sections : ∀ target, ∃ new : List (SectionHandle × SectionSpec),
    after.sectionList target =
      (before.sectionList target).filter
        (fun entry => (target, entry.1) ∉ gone) ++ new ∧
    new.map Prod.snd = (added.filter fun pair => pair.1 = target).map Prod.snd ∧
    ∀ entry ∈ new, before.nextHandle.toNat ≤ entry.1.number.toNat ∧
      entry.1.number.toNat < after.nextHandle.toNat

namespace Edited

variable {before between after : MemoryHost}
  {gone later : List (TargetId × SectionHandle)}
  {added more : List (TargetId × SectionSpec)}

theorem refl (host : MemoryHost) : Edited host host [] [] where
  channels := rfl
  wiring := rfl
  access _ := rfl
  next := rfl
  sections target := ⟨[], by simp⟩

theorem below (edited : Edited before after gone added) (below : before.Below) :
    after.Below := by
  intro target entry member
  obtain ⟨new, same, _, fresh⟩ := edited.sections target
  rw [same] at member
  rcases List.mem_append.mp member with old | made
  · have low := below target entry (List.mem_filter.mp old).1
    have next := edited.next
    omega
  · exact (fresh entry made).2

theorem trans (first : Edited before between gone added)
    (second : Edited between after later more)
    (old : ∀ pair ∈ later, pair.2.number.toNat < before.nextHandle.toNat) :
    Edited before after (gone ++ later) (added ++ more) where
  channels := second.channels.trans first.channels
  wiring := second.wiring.trans first.wiring
  access target := (second.access target).trans (first.access target)
  next := by
    rw [second.next, first.next, List.length_append, Nat.add_assoc]
  sections target := by
    obtain ⟨new, firstList, firstSpecs, firstFresh⟩ := first.sections target
    obtain ⟨newer, secondList, secondSpecs, secondFresh⟩ :=
      second.sections target
    have kept : new.filter (fun entry => (target, entry.1) ∉ later) = new := by
      apply List.filter_eq_self.mpr
      intro entry member
      have fresh := (firstFresh entry member).1
      have absent : (target, entry.1) ∉ later := fun listed =>
        Nat.not_lt.mpr fresh (old _ listed)
      simpa using absent
    refine ⟨new ++ newer, ?_, ?_, ?_⟩
    · rw [secondList, firstList, List.filter_append, kept, List.filter_filter,
        List.append_assoc]
      congr 1
      apply List.filter_congr
      intro entry _
      simp [Bool.and_comm]
    · rw [List.map_append, firstSpecs, secondSpecs, List.filter_append,
        List.map_append]
    · intro entry member
      have next := first.next
      have nextAfter := second.next
      rcases List.mem_append.mp member with made | made
      · have fresh := firstFresh entry made
        omega
      · have fresh := secondFresh entry made
        omega

end Edited

/-! ### One edit -/

theorem sectionList_of_replaced {host' : MemoryHost} {now : Target}
    (replaced : host'.targets = replaceAt host.targets target (some now))
    (other : TargetId) :
    host'.sectionList other =
      if other = target then now.sections.toList
        else host.sectionList other := by
  by_cases here : other = target
  · simp [sectionList, replaced, replaceAt, here]
  · simp [sectionList, replaced, replaceAt, here]

theorem sectionList_removeSection (accepting : host.access target = .accepting)
    (handle : SectionHandle) (other : TargetId) :
    (host.removeSection target handle).2.sectionList other =
      (host.sectionList other).filter fun entry =>
        (other, entry.1) ∉ [(target, handle)] := by
  obtain ⟨state, editable, found⟩ :=
    (access_eq_accepting_iff.mp accepting).editable
  have here : host.sectionList target = state.sections.toList := by
    rw [sectionList, found]
  simp only [removeSection, editable]
  split
  · rw [sectionList_of_replaced rfl]
    by_cases same : other = target
    · subst same
      rw [if_pos rfl, here]
      apply List.filter_congr
      intro entry _
      rw [Bool.eq_iff_iff]
      simp
    · simp [same]
  next absent =>
      symm
      apply List.filter_eq_self.mpr
      intro entry member
      have apart : (other, entry.1) ≠ (target, handle) := by
        rintro ⟨⟩
        rw [here] at member
        exact absent (Ascending.contains_of_mem member)
      simp [apart]

theorem edited_removeSection (accepting : host.access target = .accepting)
    (handle : SectionHandle) :
    Edited host (host.removeSection target handle).2 [(target, handle)] [] where
  channels := by
    unfold removeSection
    split
    · rfl
    · split <;> rfl
  wiring := by
    unfold removeSection
    split
    · rfl
    · split <;> rfl
  access := access_removeSection host target handle
  next := by rw [nextHandle_removeSection]; rfl
  sections other :=
    ⟨[], by rw [sectionList_removeSection accepting, List.append_nil],
     rfl, by simp⟩

theorem edited_addSection (accepting : host.access target = .accepting)
    (below : host.Below) (room : host.nextHandle.toNat + 1 < UInt64.size)
    (spec : SectionSpec) :
    Edited host (host.addSection target spec).2 [] [(target, spec)] := by
  obtain ⟨state, editable, found⟩ :=
    (access_eq_accepting_iff.mp accepting).editable
  have here : host.sectionList target = state.sections.toList := by
    rw [sectionList, found]
  have next : (host.addSection target spec).2.nextHandle.toNat =
      host.nextHandle.toNat + 1 := by
    rw [(addSection_of_accepting accepting spec).2, UInt64.toNat_add]
    exact Nat.mod_eq_of_lt room
  have above : ∀ entry ∈ state.sections.toList,
      compare entry.1 (⟨host.nextHandle⟩ : SectionHandle) = .lt := by
    intro entry member
    have low : entry.1.number < host.nextHandle :=
      below target entry (here ▸ member)
    simp [compare, compareOn, compareOfLessAndEq, low]
  refine ⟨?_, ?_, access_addSection host target spec, next, fun other => ?_⟩
  · simp only [addSection, editable, create]
  · simp only [addSection, editable, create]
  · simp only [addSection, editable, create] at next ⊢
    rw [sectionList_of_replaced rfl]
    by_cases same : other = target
    · subst same
      refine ⟨[(⟨host.nextHandle⟩, spec)], ?_, by simp, ?_⟩
      · rw [if_pos rfl, Ascending.toList_put_of_above above, here]
        simp
      · simp [next]
    · refine ⟨[], ?_, ?_, by simp⟩
      · simp [same]
      · simp [Ne.symm same]

/-! ### Several edits of one target -/

theorem edited_removeAll (accepting : host.access target = .accepting)
    (handles : List SectionHandle)
    (old : ∀ handle ∈ handles, handle.number.toNat < host.nextHandle.toNat) :
    Edited host (host.removeAll target handles) (handles.map (target, ·))
      [] := by
  induction handles generalizing host with
  | nil => exact .refl host
  | cons handle rest ih =>
      have first := edited_removeSection accepting handle
      have still : (host.removeSection target handle).2.access target =
          .accepting :=
        (first.access target).trans accepting
      have restOld : ∀ other ∈ rest, other.number.toNat <
          host.nextHandle.toNat :=
        fun other member => old other (List.mem_cons_of_mem handle member)
      refine first.trans (ih still fun other member => ?_) ?_
      · rw [nextHandle_removeSection]
        exact restOld other member
      · rw [List.forall_mem_map]
        exact restOld

theorem edited_addAll (accepting : host.access target = .accepting)
    (below : host.Below) (specs : List SectionSpec)
    (room : host.nextHandle.toNat + specs.length < UInt64.size) :
    Edited host (host.addAll target specs) [] (specs.map (target, ·)) := by
  induction specs generalizing host with
  | nil => exact .refl host
  | cons spec rest ih =>
      rw [List.length_cons] at room
      have first := edited_addSection accepting below (by omega) spec
      have still : (host.addSection target spec).2.access target = .accepting :=
        (first.access target).trans accepting
      have next := first.next
      rw [List.length_singleton] at next
      exact first.trans (ih still (first.below below) (by omega)) (by simp)

end MemoryHost

end CircuitSections
