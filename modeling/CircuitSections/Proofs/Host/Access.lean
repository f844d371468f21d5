import CircuitSections.Proofs.Host.Sections

/-!
# How targets take edits

A target is missing, cannot hold sections, refuses edits, or accepts them.  That
is all that the host's answers depend on, except for which sections there are,
and no edit changes it.
-/

namespace CircuitSections

/-- What becomes of an edit of a target. -/
inductive TargetAccess
  /-- The target is not there. -/
  | missing
  /-- The target cannot hold sections. -/
  | plain
  | refusing (reason : String)
  | accepting
  deriving DecidableEq

def Target.access (state : Target) : TargetAccess :=
  if state.supportsSections then
    match state.refusal with
    | some reason => .refusing reason
    | none => .accepting
  else .plain

namespace MemoryHost

variable {host host' : MemoryHost} {target : TargetId}

def access (host : MemoryHost) (target : TargetId) : TargetAccess :=
  match host.targets target with
  | none => .missing
  | some state => state.access

theorem access_of_some {state : Target}
    (found : host.targets target = some state) :
    host.access target = state.access := by
  rw [access, found]

theorem targetExists_iff : host.targetExists target = true ↔
    host.access target ≠ .missing := by
  unfold targetExists access
  cases host.targets target with
  | none => simp
  | some state =>
      simp only [Option.isSome_some, Target.access, true_iff, ne_eq]
      split
      · split <;> simp
      · simp

theorem supportsSections_iff : host.supportsSections target = true ↔
    host.access target ≠ .missing ∧ host.access target ≠ .plain := by
  unfold supportsSections access
  cases host.targets target with
  | none => simp
  | some state =>
      simp only [Option.any_some, Target.access]
      split
      next supported => split <;> simp [supported]
      next bare => simp [bare]

theorem access_of_gone (gone : host.targetExists target = false) :
    host.access target = .missing := by
  apply Decidable.byContradiction
  intro there
  rw [targetExists_iff.mpr there] at gone
  cases gone

theorem access_of_bare (there : host.targetExists target = true)
    (bare : host.supportsSections target = false) :
    host.access target = .plain := by
  apply Decidable.byContradiction
  intro able
  rw [supportsSections_iff.mpr ⟨targetExists_iff.mp there, able⟩] at bare
  cases bare

theorem access_eq_accepting_iff : host.access target = .accepting ↔
    host.Accepts target := by
  unfold access Accepts
  cases host.targets target with
  | none => simp
  | some state =>
      simp only [Target.access, Option.some.injEq, exists_eq_left']
      split
      next supported => split <;> simp_all
      next bare => simp [bare]

theorem editable_of_refusing {reason : String}
    (refusing : host.access target = .refusing reason) :
    host.editable target = .error (.rejected target reason) := by
  cases found : host.targets target with
  | none => simp [access, found] at refusing
  | some state =>
      rw [access_of_some found, Target.access] at refusing
      split at refusing
      next supported =>
          split at refusing
          next stated =>
              cases refusing
              simp [editable, found, supported, stated]
          · cases refusing
      · cases refusing

theorem access_of_replaced (now : Target)
    (replaced : host'.targets = replaceAt host.targets target (some now))
    (same : host.access target = now.access) (other : TargetId) :
    host'.access other = host.access other := by
  by_cases here : other = target
  · subst here
    rw [same]
    simp [access, replaced, replaceAt]
  · simp [access, replaced, replaceAt, here]

theorem access_addSection (host : MemoryHost) (target : TargetId)
    (spec : SectionSpec) (other : TargetId) :
    (host.addSection target spec).2.access other = host.access other := by
  unfold addSection
  split
  · rfl
  next state editable =>
      have same : host.access target = state.access :=
        access_of_some (editable_eq_ok editable).1
      exact access_of_replaced
        { state with sections := state.sections.put (⟨host.nextHandle⟩, spec) }
          rfl same other

theorem access_removeSection (host : MemoryHost) (target : TargetId)
    (handle : SectionHandle) (other : TargetId) :
    (host.removeSection target handle).2.access other = host.access other := by
  unfold removeSection
  split
  · rfl
  next state editable =>
      have same : host.access target = state.access :=
        access_of_some (editable_eq_ok editable).1
      split
      · exact access_of_replaced { state with
          sections := state.sections.erase handle } rfl same
          other
      · rfl

theorem accepts_removeSection {handle : SectionHandle}
    {answer : Except HostError Unit}
    (answered : host.removeSection target handle = (answer, host'))
    (other : TargetId) :
    host'.Accepts other ↔ host.Accepts other := by
  have same := access_removeSection host target handle other
  rw [answered] at same
  rw [← access_eq_accepting_iff, ← access_eq_accepting_iff, same]

theorem accepts_addSection {spec : SectionSpec}
    {answer : Except HostError SectionHandle}
    (answered : host.addSection target spec = (answer, host'))
    (other : TargetId) :
    host'.Accepts other ↔ host.Accepts other := by
  have same := access_addSection host target spec other
  rw [answered] at same
  rw [← access_eq_accepting_iff, ← access_eq_accepting_iff, same]

theorem addSection_of_accepting (accepting : host.access target = .accepting)
    (spec : SectionSpec) :
    (host.addSection target spec).1 = .ok ⟨host.nextHandle⟩ ∧
      (host.addSection target spec).2.nextHandle = host.nextHandle + 1 := by
  obtain ⟨state, editable, _⟩ := (access_eq_accepting_iff.mp accepting).editable
  simp [addSection, editable, create]

theorem nextHandle_removeSection (host : MemoryHost) (target : TargetId)
    (handle : SectionHandle) :
    (host.removeSection target handle).2.nextHandle = host.nextHandle := by
  unfold removeSection
  split
  · rfl
  · split <;> rfl

/-! ### Several edits of one target -/

/-- Removes the sections under the given handles, as far as they are there. -/
def removeAll (host : MemoryHost) (target : TargetId)
    (handles : List SectionHandle) : MemoryHost :=
  handles.foldl (fun host handle => (host.removeSection target handle).2) host

/-- Adds a section for each of the given specs. -/
def addAll (host : MemoryHost) (target : TargetId)
    (specs : List SectionSpec) : MemoryHost :=
  specs.foldl (fun host spec => (host.addSection target spec).2) host

theorem access_removeAll (host : MemoryHost) (target : TargetId)
    (handles : List SectionHandle) (other : TargetId) :
    (host.removeAll target handles).access other = host.access other := by
  induction handles generalizing host with
  | nil => rfl
  | cons handle rest ih =>
      exact (ih _).trans (access_removeSection host target handle other)

theorem nextHandle_removeAll (host : MemoryHost) (target : TargetId)
    (handles : List SectionHandle) :
    (host.removeAll target handles).nextHandle = host.nextHandle := by
  induction handles generalizing host with
  | nil => rfl
  | cons handle rest ih =>
      exact (ih _).trans (nextHandle_removeSection host target handle)

theorem access_addAll (host : MemoryHost) (target : TargetId)
    (specs : List SectionSpec) (other : TargetId) :
    (host.addAll target specs).access other = host.access other := by
  induction specs generalizing host with
  | nil => rfl
  | cons spec rest ih =>
      exact (ih _).trans (access_addSection host target spec other)

end MemoryHost

end CircuitSections
