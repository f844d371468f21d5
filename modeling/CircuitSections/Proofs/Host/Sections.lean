import CircuitSections.Host.Memory
import CircuitSections.Proofs.Ordered.Keys

/-!
# The sections on a host

Which sections a host carries after each of its operations.  An edit touches one
section of one target; spawning and destroying a target takes all of its
sections away and touches no other.
-/

namespace CircuitSections

/-- A section where it stands. -/
structure HostSection where
  target : TargetId
  handle : SectionHandle
  spec : SectionSpec
  deriving DecidableEq

namespace MemoryHost

/-- The section is on its target. -/
def Carries (host : MemoryHost) (placed : HostSection) : Prop :=
  ∃ state, host.targets placed.target = some state ∧
    (placed.handle, placed.spec) ∈ state.sections.toList

instance (host : MemoryHost) (placed : HostSection) :
    Decidable (host.Carries placed) :=
  match found : host.targets placed.target with
  | none => isFalse fun ⟨_, same, _⟩ => by simp [found] at same
  | some state =>
    decidable_of_iff ((placed.handle, placed.spec) ∈ state.sections.toList) (by
      simp [Carries, found])

/-- Edits of the target succeed. -/
def Accepts (host : MemoryHost) (target : TargetId) : Prop :=
  ∃ state, host.targets target = some state ∧ state.supportsSections = true ∧
    state.refusal = none

instance (host : MemoryHost) (target : TargetId) :
    Decidable (host.Accepts target) :=
  match found : host.targets target with
  | none => isFalse fun ⟨_, same, _⟩ => by simp [found] at same
  | some state =>
    decidable_of_iff (state.supportsSections = true ∧ state.refusal = none) (by
      simp [Accepts, found])

theorem Carries.unique {host : MemoryHost} {a b : HostSection}
    (left : host.Carries a) (right : host.Carries b)
    (targets : a.target = b.target) (handles : a.handle = b.handle) :
    a = b := by
  obtain ⟨state, found, member⟩ := left
  obtain ⟨other, otherFound, otherMember⟩ := right
  rw [← targets, found] at otherFound
  cases otherFound
  have specs :=
    congrArg Prod.snd (Ascending.eq_of_key_eq member otherMember handles)
  cases a
  cases b
  simp_all

theorem not_carries_of_missing {host : MemoryHost} {placed : HostSection}
    (missing : host.targets placed.target = none) : ¬ host.Carries placed := by
  intro carried
  obtain ⟨state, found, _⟩ := carried
  simp [missing] at found

section Replaced

variable {host host' : MemoryHost} {target : TargetId} {placed : HostSection}

theorem carries_of_other {now : Option Target}
    (replaced : host'.targets = replaceAt host.targets target now)
    (other : placed.target ≠ target) : host'.Carries placed ↔
      host.Carries placed := by
  simp [Carries, replaced, replaceAt, other]

theorem carries_of_replaced {state : Target}
    (replaced : host'.targets = replaceAt host.targets target (some state))
    (same : placed.target = target) :
    host'.Carries placed ↔ (placed.handle, placed.spec) ∈
      state.sections.toList := by
  simp [Carries, replaced, replaceAt, same]

theorem carries_of_cleared {now : Option Target}
    (replaced : host'.targets = replaceAt host.targets target now)
    (bare : ∀ state, now = some state → state.sections = .empty) :
    host'.Carries placed ↔ host.Carries placed ∧ placed.target ≠ target := by
  by_cases same : placed.target = target
  · have gone : ¬ host'.Carries placed := by
      intro carried
      obtain ⟨state, found, member⟩ := carried
      rw [replaced, replaceAt, if_pos same] at found
      rw [bare state found] at member
      exact List.not_mem_nil member
    simp [gone, same]
  · simp [carries_of_other replaced same, same]

end Replaced

/-! ### Edits -/

section Edits

variable {host host' : MemoryHost} {target : TargetId}

theorem editable_eq_ok {state : Target}
    (editable : host.editable target = .ok state) :
    host.targets target = some state ∧ state.supportsSections = true ∧
      state.refusal = none := by
  unfold MemoryHost.editable at editable
  split at editable
  · cases editable
  next found =>
    split at editable
    next supported =>
      split at editable
      · cases editable
      next accepting =>
        cases editable
        exact ⟨found, supported, accepting⟩
    · cases editable

theorem Accepts.editable (accepts : host.Accepts target) :
    ∃ state, host.editable target = .ok state ∧ host.targets target =
      some state := by
  obtain ⟨state, found, supported, accepting⟩ := accepts
  exact ⟨state, by simp [MemoryHost.editable, found, supported, accepting],
    found⟩

/-- A target that accepts edits either removes a section or does not have it. -/
theorem Accepts.removeSection (accepts : host.Accepts target)
    (handle : SectionHandle) :
    (∃ host', host.removeSection target handle = (.ok (), host')) ∨
      host.removeSection target handle =
        (.error (.sectionNotFound target handle), host) := by
  obtain ⟨state, editable, _⟩ := accepts.editable
  simp only [MemoryHost.removeSection, editable]
  split
  · exact .inl ⟨_, rfl⟩
  · exact .inr rfl

theorem carries_removeSection {handle : SectionHandle}
    (removed : host.removeSection target handle = (.ok (), host'))
    {placed : HostSection} :
    host'.Carries placed ↔
      host.Carries placed ∧
        ¬ (placed.target = target ∧ placed.handle = handle) := by
  unfold removeSection at removed
  split at removed
  · cases removed
  next state editable =>
    split at removed
    · cases removed
      by_cases same : placed.target = target
      · subst same
        rw [carries_of_replaced rfl rfl, Ascending.mem_erase]
        simp [Carries, (editable_eq_ok editable).1]
      · rw [carries_of_other rfl same]
        simp [same]
    · cases removed

theorem removeSection_frame {handle : SectionHandle}
    (removed : host.removeSection target handle = (.ok (), host')) :
    host'.nextHandle = host.nextHandle ∧ host'.wiring = host.wiring ∧
      host'.channels = host.channels := by
  unfold removeSection at removed
  split at removed
  · cases removed
  · split at removed
    · cases removed
      exact ⟨rfl, rfl, rfl⟩
    · cases removed

theorem removeSection_error {handle : SectionHandle} {cause : HostError}
    (failed : host.removeSection target handle = (.error cause, host')) :
    host' = host := by
  unfold removeSection at failed
  split at failed
  · cases failed
    rfl
  · split at failed
    · cases failed
    · cases failed
      rfl

theorem not_carries_of_sectionNotFound {handle other : SectionHandle}
    {named : TargetId}
    (failed : host.removeSection target handle =
      (.error (.sectionNotFound named other), host'))
    {placed : HostSection} (carried : host.Carries placed) :
    ¬ (placed.target = target ∧ placed.handle = handle) := by
  intro same
  obtain ⟨rfl, rfl⟩ := same
  obtain ⟨state, found, member⟩ := carried
  unfold removeSection at failed
  split at failed
  next cause refused =>
    cases failed
    simp only [MemoryHost.editable, found] at refused
    split at refused
    · split at refused <;> cases refused
    · cases refused
  next editable =>
    have same := (editable_eq_ok editable).1
    rw [found] at same
    cases same
    split at failed
    · cases failed
    next absent =>
      exact absent (Ascending.contains_of_mem member)

theorem carries_of_removed {handle : SectionHandle}
    (removed : (host.removeSection target handle).1 = .ok ()) :
    ∃ spec, host.Carries ⟨target, handle, spec⟩ := by
  unfold removeSection at removed
  split at removed
  · cases removed
  next state editable =>
    split at removed
    next listed =>
      obtain ⟨⟨_, spec⟩, member, rfl⟩ := Ascending.contains_iff.mp listed
      exact ⟨spec, state, (editable_eq_ok editable).1, member⟩
    · cases removed

theorem Carries.removeSection {placed : HostSection}
    (carried : host.Carries placed) (accepts : host.Accepts placed.target) :
    ∃ host', host.removeSection placed.target placed.handle =
      (.ok (), host') := by
  rcases accepts.removeSection placed.handle with done | refused
  · exact done
  · exact (not_carries_of_sectionNotFound refused carried ⟨rfl, rfl⟩).elim

theorem missing_of_targetNotFound {handle : SectionHandle} {named : TargetId}
    (failed : host.removeSection target handle =
      (.error (.targetNotFound named), host')) :
    host.targets target = none := by
  unfold removeSection at failed
  split at failed
  next cause refused =>
    cases failed
    unfold MemoryHost.editable at refused
    split at refused
    · assumption
    · split at refused
      · split at refused <;> cases refused
      · cases refused
  · split at failed <;> cases failed

theorem carries_create {state : Target}
    (found : host.targets target = some state) {spec : SectionSpec}
    {placed : HostSection} :
    (host.create target state spec).2.Carries placed ↔
      placed = ⟨target, ⟨host.nextHandle⟩, spec⟩ ∨
        host.Carries placed ∧
          ¬ (placed.target = target ∧ placed.handle = ⟨host.nextHandle⟩) := by
  by_cases same : placed.target = target
  · subst same
    rw [carries_of_replaced rfl rfl]
    have old : host.Carries placed ↔ (placed.handle, placed.spec) ∈
        state.sections.toList := by
      simp [Carries, found]
    rw [old, Ascending.mem_put]
    cases placed
    simp
  · rw [carries_of_other rfl same]
    have other : placed ≠ ⟨target, ⟨host.nextHandle⟩, spec⟩ := fun equal =>
      same (by rw [equal])
    simp [same, other]

theorem addSection_ok {spec : SectionSpec} {handle : SectionHandle}
    (added : host.addSection target spec = (.ok handle, host')) :
    ∃ state, host.targets target = some state ∧
      (handle, host') = host.create target state spec := by
  unfold addSection at added
  split at added
  · cases added
  next state editable =>
    cases added
    exact ⟨state, (editable_eq_ok editable).1, rfl⟩

theorem addSection_error {spec : SectionSpec} {cause : HostError}
    (failed : host.addSection target spec = (.error cause, host')) :
    host' = host := by
  unfold addSection at failed
  split at failed
  · cases failed
    rfl
  · cases failed

theorem addManualSection_some {spec : SectionSpec} {handle : SectionHandle}
    (added : (host.addManualSection target spec).1 = some handle) :
    ∃ state, host.targets target = some state ∧
      (handle, (host.addManualSection target spec).2) =
        host.create target state spec := by
  unfold addManualSection at added ⊢
  split at added
  · cases added
  next state found =>
    split at added
    next supported =>
      cases added
      exact ⟨state, found, by
        simp only [supported, if_true]
        rfl⟩
    · cases added

theorem addManualSection_none {spec : SectionSpec}
    (refused : (host.addManualSection target spec).1 = none) :
    (host.addManualSection target spec).2 = host := by
  unfold addManualSection at refused ⊢
  split at refused
  · rfl
  · split at refused
    · cases refused
    next unsupported => simp [unsupported]

end Edits

end MemoryHost

end CircuitSections
