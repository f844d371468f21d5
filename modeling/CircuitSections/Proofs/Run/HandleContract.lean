import CircuitSections.Proofs.Run.Reach

/-!
# What handles promise

What every caller of the host in memory may rely on, whatever calls are made of
it and by whom.  The story of a host tells which sections were created and what
took sections away since then; a section that lives by the story is on the host,
and no other one is (`HostRun.Told.carried`).  Calls that only read leave the
host as it is and have no part in a run.
-/

namespace CircuitSections

/-- Something that happened to the sections of a host. -/
inductive SectionEvent
  /-- A section was added, and its handle was returned. -/
  | created (placed : HostSection)
  /-- The section under a handle was removed. -/
  | removed (target : TargetId) (handle : SectionHandle)
  /-- A target was spawned or destroyed. -/
  | cleared (target : TargetId)
  deriving DecidableEq

namespace SectionEvent

/-- The event takes the section away. -/
def Ends (placed : HostSection) : SectionEvent → Prop
  | .created _ => False
  | .removed target handle => placed.target = target ∧ placed.handle = handle
  | .cleared target => placed.target = target

instance (placed : HostSection) : (event : SectionEvent) →
    Decidable (event.Ends placed)
  | .created _ => inferInstanceAs (Decidable False)
  | .removed _ _ => inferInstanceAs (Decidable (_ ∧ _))
  | .cleared _ => inferInstanceAs (Decidable (_ = _))

/-- The section that was created. -/
def creation? : SectionEvent → Option HostSection
  | .created placed => some placed
  | _ => none

/-- What a change of the host does to the sections. -/
def ofEvent? : Event → Option SectionEvent
  | .created _ placed => some (.created placed)
  | .cleared target => some (.cleared target)
  | _ => none

end SectionEvent

/-! ### Stories -/

/-- The sections that were created, the earliest first. -/
def created (story : List SectionEvent) : List HostSection :=
  story.filterMap SectionEvent.creation?

/-- The section was created, and nothing since then took it away. -/
def Alive (placed : HostSection) : List SectionEvent → Prop
  | [] => False
  | event :: later =>
    event = .created placed ∧ (∀ other ∈ later, ¬ other.Ends placed) ∨
      Alive placed later

instance Alive.decide (placed : HostSection) : (story : List SectionEvent) →
    Decidable (Alive placed story)
  | [] => inferInstanceAs (Decidable False)
  | _ :: later =>
    have := Alive.decide placed later
    inferInstanceAs (Decidable (_ ∨ _))

section Stories

variable {placed : HostSection} {story earlier later : List SectionEvent}

theorem created_append (earlier later : List SectionEvent) :
    created (earlier ++ later) = created earlier ++ created later :=
  List.filterMap_append

theorem mem_created : placed ∈ created story ↔
    SectionEvent.created placed ∈ story := by
  simp only [created, List.mem_filterMap]
  constructor
  · rintro ⟨event, member, same⟩
    cases event with
    | created other =>
        cases same
        exact member
    | removed _ _ => cases same
    | cleared _ => cases same
  · intro member
    exact ⟨_, member, rfl⟩

theorem alive_append :
    Alive placed (earlier ++ later) ↔
      Alive placed earlier ∧ (∀ event ∈ later, ¬ event.Ends placed) ∨
        Alive placed later := by
  induction earlier with
  | nil => simp [Alive]
  | cons event rest ih =>
      simp only [List.cons_append, Alive, ih, List.forall_mem_append]
      tauto

theorem alive_concat {event : SectionEvent} :
    Alive placed (story ++ [event]) ↔
      Alive placed story ∧ ¬ event.Ends placed ∨ event = .created placed := by
  simp [alive_append, Alive]

theorem Alive.created (alive : Alive placed story) :
    placed ∈ created story := by
  induction story with
  | nil => exact alive.elim
  | cons event rest ih =>
      rcases alive with ⟨rfl, _⟩ | alive
      · exact mem_created.mpr List.mem_cons_self
      · exact mem_created.mpr
          (List.mem_cons_of_mem _ (mem_created.mp (ih alive)))

end Stories

/-! ### Calls -/

/-- A call of the host in memory that may change it. -/
inductive HostOperation
  | change (change : HostChange)
  | addSection (target : TargetId) (spec : SectionSpec)
  | removeSection (target : TargetId) (handle : SectionHandle)

namespace HostOperation

/-- The host after the call. -/
def apply (host : MemoryHost) : HostOperation → MemoryHost
  | .change other => other.apply host
  | .addSection target spec => (host.addSection target spec).2
  | .removeSection target handle => (host.removeSection target handle).2

/-- What the call does to the sections, as its answer tells. -/
def events (host : MemoryHost) : HostOperation → List SectionEvent
  | .change other => (other.events host).filterMap SectionEvent.ofEvent?
  | .addSection target spec =>
    match (host.addSection target spec).1 with
    | .ok handle => [.created ⟨target, handle, spec⟩]
    | .error _ => []
  | .removeSection target handle =>
    match (host.removeSection target handle).1 with
    | .ok () => [.removed target handle]
    | .error _ => []

/-- The call neither removes the section nor spawns or destroys its target. -/
def Spares (placed : HostSection) : HostOperation → Prop
  | .removeSection target handle =>
    ¬ (placed.target = target ∧ placed.handle = handle)
  | .change (.addTarget target) => placed.target ≠ target
  | .change (.addPlainTarget target) => placed.target ≠ target
  | .change (.destroyTarget target) => placed.target ≠ target
  | _ => True

variable {host : MemoryHost} {placed : HostSection}

/-- What a call can do to the sections: take some away, put one under the next
handle, or nothing. -/
theorem cases_apply (host : MemoryHost) (operation : HostOperation) :
    (∃ event, operation.events host = [event] ∧ event.creation? = none ∧
      (operation.apply host).nextHandle = host.nextHandle ∧
      ∀ placed, (operation.apply host).Carries placed ↔
        host.Carries placed ∧ ¬ event.Ends placed) ∨
    (∃ target state spec, host.targets target = some state ∧
      operation.events host = [.created ⟨target, ⟨host.nextHandle⟩, spec⟩] ∧
      operation.apply host = (host.create target state spec).2) ∨
    (operation.events host = [] ∧ (operation.apply host).nextHandle =
      host.nextHandle ∧
      ∀ placed, (operation.apply host).Carries placed ↔
        host.Carries placed) := by
  cases operation with
  | change other =>
      simp only [apply, events]
      rcases other.cases_apply host with
        ⟨target, told, next, carries⟩ |
          ⟨target, state, spec, found, told, applied⟩ |
        ⟨told, next, carries⟩
      · exact .inl ⟨.cleared target, by rw [told]; rfl, rfl, next, carries⟩
      · exact .inr
          (.inl ⟨target, state, spec, found, by rw [told]; rfl, applied⟩)
      · exact .inr (.inr ⟨by rw [told]; rfl, next, carries⟩)
  | addSection target spec =>
      simp only [apply, events]
      rcases answered : host.addSection target spec with ⟨answer, after⟩
      cases answer with
      | ok handle =>
          obtain ⟨state, found, made⟩ := MemoryHost.addSection_ok answered
          obtain ⟨rfl, rfl⟩ := Prod.mk.inj made
          exact .inr (.inl ⟨target, state, spec, found, rfl, rfl⟩)
      | error cause =>
          obtain rfl := MemoryHost.addSection_error answered
          exact .inr (.inr ⟨rfl, rfl, fun placed => Iff.rfl⟩)
  | removeSection target handle =>
      simp only [apply, events]
      rcases answered : host.removeSection target handle with ⟨answer, after⟩
      cases answer with
      | ok done =>
          exact .inl ⟨.removed target handle, rfl, rfl,
            (MemoryHost.removeSection_frame answered).1,
            fun placed => MemoryHost.carries_removeSection answered⟩
      | error cause =>
          obtain rfl := MemoryHost.removeSection_error answered
          exact .inr (.inr ⟨rfl, rfl, fun placed => Iff.rfl⟩)

theorem Spares.not_ends {operation : HostOperation}
    (spares : operation.Spares placed) :
    ∀ event ∈ operation.events host, ¬ event.Ends placed := by
  intro event told ends
  cases operation with
  | change other =>
      cases other with
      | addTarget target | addPlainTarget target | destroyTarget target =>
          obtain rfl : event = .cleared target := List.mem_singleton.mp told
          exact spares ends
      | addManualSection target spec =>
          simp only [events, HostChange.events] at told
          split at told
          · cases List.mem_singleton.mp told
            exact ends
          · cases told
      | _ => cases told
  | addSection target spec =>
      simp only [events] at told
      split at told
      · cases List.mem_singleton.mp told
        exact ends
      · cases told
  | removeSection target handle =>
      simp only [events] at told
      split at told
      · cases List.mem_singleton.mp told
        exact spares ends
      · cases told

theorem wiring_nodup (once : ∀ id, (host.wiring id).Nodup)
    (operation : HostOperation) (id : CombinatorId) :
    ((operation.apply host).wiring id).Nodup := by
  cases operation with
  | change other => exact other.wiring_nodup once id
  | addSection target spec =>
      simp only [apply]
      rcases answered : host.addSection target spec with ⟨answer, after⟩
      cases answer with
      | ok handle =>
          obtain ⟨state, _, made⟩ := MemoryHost.addSection_ok answered
          obtain ⟨_, rfl⟩ := Prod.mk.inj made
          exact once id
      | error cause =>
          obtain rfl := MemoryHost.addSection_error answered
          exact once id
  | removeSection target handle =>
      simp only [apply]
      rcases answered : host.removeSection target handle with ⟨answer, after⟩
      cases answer with
      | ok done =>
          rw [(MemoryHost.removeSection_frame answered).2.1]
          exact once id
      | error cause =>
          obtain rfl := MemoryHost.removeSection_error answered
          exact once id

end HostOperation

/-! ### Runs -/

/-- A host with the story of its sections. -/
structure HostRun where
  host : MemoryHost
  /-- What happened to the sections, the earliest first. -/
  story : List SectionEvent

namespace HostRun

def perform (run : HostRun) (operation : HostOperation) : HostRun :=
  ⟨operation.apply run.host, run.story ++ operation.events run.host⟩

/-- The run from a host that nothing happened to. -/
def of (operations : List HostOperation) : HostRun :=
  operations.foldl perform ⟨.empty, []⟩

@[simp]
theorem of_concat (operations : List HostOperation)
    (operation : HostOperation) :
    of (operations ++ [operation]) = (of operations).perform operation := by
  simp [of]

/-- The handles have not come round yet. -/
def Few (run : HostRun) : Prop := (created run.story).length < UInt64.size

/-- The creations as events of a world without engines. -/
def log (run : HostRun) : List Event := (created run.story).map (.created .hand)

theorem creations_log (run : HostRun) :
    creations run.log = (created run.story).map (.hand, ·) := by
  have told : Event.creation? ∘ Event.created .hand = some ∘ (Maker.hand, ·) :=
    rfl
  rw [log, creations, List.filterMap_map, told, List.filterMap_eq_map]

theorem few_log {run : HostRun} : CircuitSections.Few run.log ↔ run.Few := by
  rw [CircuitSections.Few, creations_log, List.length_map, Few]

theorem story_append (earlier later : List HostOperation) :
    ∃ rest, (of (earlier ++ later)).story = (of earlier).story ++ rest := by
  induction later using List.reverseRecOn with
  | nil => exact ⟨[], by simp⟩
  | append_singleton later operation ih =>
      obtain ⟨rest, same⟩ := ih
      refine ⟨rest ++ operation.events (of (earlier ++ later)).host, ?_⟩
      rw [← List.append_assoc, of_concat, perform, same, List.append_assoc]

theorem Few.of_earlier {earlier later : List HostOperation}
    (few : (of (earlier ++ later)).Few) :
    (of earlier).Few := by
  obtain ⟨rest, same⟩ := story_append earlier later
  rw [Few, same, created_append, List.length_append] at few
  exact Nat.lt_of_le_of_lt (Nat.le_add_right _ _) few

/-- Handles are numbered, and the host carries the sections that live by the
story. -/
structure Told (run : HostRun) : Prop where
  numbered : Numbered run.host run.log
  carried : ∀ placed, run.host.Carries placed ↔ Alive placed run.story

namespace Told

variable {run : HostRun}

theorem start : Told ⟨.empty, []⟩ where
  numbered := Numbered.start
  carried placed := by
    refine ⟨fun carried => ?_, False.elim⟩
    obtain ⟨_, found, _⟩ := carried
    cases found

/-- A call keeps the story true while sections are few. -/
theorem perform (told : Told run) (operation : HostOperation) (few : run.Few) :
    Told (run.perform operation) := by
  have numbered := told.numbered
  rcases operation.cases_apply run.host with
    ⟨event, events, silent, next, carries⟩ |
      ⟨target, state, spec, found, events, applied⟩ |
    ⟨events, next, carries⟩
  · have same : (run.perform operation).log = run.log := by
      simp [log, HostRun.perform, events, created, silent]
    refine ⟨?_, fun placed => ?_⟩
    · exact numbered.of_fewer next (by rw [same]) fun placed carried =>
        ((carries placed).mp carried).1
    · have other : event ≠ .created placed := by
        rintro rfl
        cases silent
      simp [HostRun.perform, events, alive_concat, carries, told.carried, other]
  · have longer : (run.perform operation).log =
        run.log ++ [.created .hand ⟨target, ⟨run.host.nextHandle⟩, spec⟩] := by
      simp [log, HostRun.perform, events, created, SectionEvent.creation?]
    refine ⟨?_, fun placed => ?_⟩
    · rw [longer]
      simp only [HostRun.perform, applied]
      exact numbered.create found spec .hand
    · have fresh : run.host.Carries placed →
          placed.handle ≠ ⟨run.host.nextHandle⟩ := by
        intro carried
        obtain ⟨maker, made⟩ := numbered.made placed carried
        exact numbered.fresh (few_log.mpr few) made
      simp only [HostRun.perform, applied, events, alive_concat,
        SectionEvent.Ends, MemoryHost.carries_create found, told.carried,
        SectionEvent.created.injEq] at fresh ⊢
      tauto
  · have same : run.perform operation =
        ⟨operation.apply run.host, run.story⟩ := by
      simp [HostRun.perform, events]
    rw [same]
    refine ⟨numbered.of_fewer next rfl fun placed => (carries placed).mp,
      fun placed => ?_⟩
    rw [carries, told.carried]

end Told

theorem told_of {operations : List HostOperation} (few : (of operations).Few) :
    Told (of operations) := by
  induction operations using List.reverseRecOn with
  | nil => exact Told.start
  | append_singleton earlier operation ih =>
      have fewer := few.of_earlier
      rw [of_concat]
      exact (ih fewer).perform operation fewer

theorem wiring_nodup (operations : List HostOperation) (id : CombinatorId) :
    ((of operations).host.wiring id).Nodup := by
  induction operations using List.reverseRecOn generalizing id with
  | nil => exact List.nodup_nil
  | append_singleton earlier operation ih =>
      rw [of_concat]
      exact operation.wiring_nodup ih id

section Promises

variable {operations : List HostOperation}

theorem handles_ascending (few : (of operations).Few) :
    ((created (of operations).story).map HostSection.handle).Pairwise
      fun a b => compare a b = .lt := by
  have ascending := (told_of few).numbered.handles_ascending (few_log.mpr few)
  rwa [creations_log, List.map_map] at ascending

theorem handles_nodup (few : (of operations).Few) :
    ((created (of operations).story).map HostSection.handle).Nodup := by
  have distinct := (told_of few).numbered.handles_nodup (few_log.mpr few)
  rwa [creations_log, List.map_map] at distinct

theorem carries_later (earlier later : List HostOperation)
    {placed : HostSection} (few : (of (earlier ++ later)).Few)
    (carried : (of earlier).host.Carries placed)
    (spared : ∀ operation ∈ later, operation.Spares placed) :
    (of (earlier ++ later)).host.Carries placed := by
  induction later using List.reverseRecOn with
  | nil => rwa [List.append_nil]
  | append_singleton later operation ih =>
      rw [← List.append_assoc] at few ⊢
      obtain ⟨sparedBefore, sparedLast⟩ := List.forall_mem_append.mp spared
      have still := ih few.of_earlier sparedBefore
      rw [(told_of few.of_earlier).carried] at still
      rw [(told_of few).carried, of_concat, perform, alive_append]
      exact .inl ⟨still, (sparedLast operation List.mem_cons_self).not_ends⟩

/-- A handle under which a section was removed is not found on any target later
on. -/
theorem removed_once (earlier later : List HostOperation)
    {target other : TargetId} {handle : SectionHandle}
    (few : (of (earlier ++ .removeSection target handle :: later)).Few)
    (removed : ((of earlier).host.removeSection target handle).1 = .ok ()) :
    ((of (earlier ++ .removeSection target handle :: later)).host.removeSection
      other handle).1 ≠
        .ok () := by
  intro again
  have events :
      (HostOperation.removeSection target handle).events (of earlier).host =
        [.removed target handle] := by simp only [HostOperation.events, removed]
  obtain ⟨spec, carried⟩ := MemoryHost.carries_of_removed removed
  obtain ⟨spec', carriedAgain⟩ := MemoryHost.carries_of_removed again
  rw [(told_of few.of_earlier).carried] at carried
  rw [(told_of few).carried] at carriedAgain
  have distinct := handles_nodup few
  obtain ⟨rest, story⟩ :=
    story_append (earlier ++ [.removeSection target handle]) later
  rw [List.append_assoc, List.singleton_append, of_concat, perform,
    events] at story
  rw [story] at carriedAgain distinct
  -- both sections have one handle, so the section of the later removal is the
  -- earlier one,
  have before : ⟨target, handle, spec⟩ ∈
      created ((of earlier).story ++ [.removed target handle] ++ rest) := by
    rw [List.append_assoc, created_append]
    exact List.mem_append_left _ carried.created
  have same : (⟨other, handle, spec'⟩ : HostSection) = ⟨target, handle, spec⟩ :=
    List.inj_on_of_nodup_map distinct carriedAgain.created before rfl
  rw [same, alive_append, alive_concat] at carriedAgain
  rcases carriedAgain with ⟨⟨_, spared⟩ | made, _⟩ | aliveLater
  · exact spared ⟨rfl, rfl⟩
  · cases made
  -- and it was not created a second time.
  · rw [List.append_assoc, created_append, created_append, List.map_append,
      List.map_append, List.nodup_append] at distinct
    have first : handle ∈ (created (of earlier).story).map HostSection.handle :=
      List.mem_map.mpr ⟨_, carried.created, rfl⟩
    have second : handle ∈ (created rest).map HostSection.handle :=
      List.mem_map.mpr ⟨_, aliveLater.created, rfl⟩
    exact distinct.2.2 _ first _ (List.mem_append_right _ second) rfl

/-- The sections of a target are those that live, in the order of their
creation. -/
theorem sectionList_of (few : (of operations).Few) (target : TargetId) :
    (of operations).host.sectionList target =
      ((created (of operations).story).filter fun placed =>
          placed.target = target ∧ Alive placed (of operations).story).map
        fun placed => (placed.handle, placed.spec) := by
  apply MemoryHost.sectionList_eq_of_mem
  · rw [List.pairwise_map]
    exact (List.pairwise_map.mp (handles_ascending few)).filter _
  · intro entry
    rw [MemoryHost.mem_sectionList, (told_of few).carried]
    constructor
    · intro alive
      exact List.mem_map.mpr
        ⟨_, List.mem_filter.mpr ⟨alive.created, by simpa using alive⟩, rfl⟩
    · intro member
      obtain ⟨placed, among, rfl⟩ := List.mem_map.mp member
      obtain ⟨rfl, alive⟩ := by simpa using (List.mem_filter.mp among).2
      exact alive

end Promises

/-- What a host promises about handles and wires after some calls. -/
structure Honours (operations : List HostOperation) : Prop where
  /-- No handle is returned twice, whatever the targets. -/
  distinct : ((created (of operations).story).map HostSection.handle).Nodup
  /-- The host carries the sections that live by the story. -/
  carried : ∀ placed, (of operations).host.Carries placed ↔
    Alive placed (of operations).story
  /-- A section stays as it is through calls that spare it. -/
  lasting : ∀ earlier later placed, operations = earlier ++ later →
    (of earlier).host.Carries placed →
      (∀ operation ∈ later, operation.Spares placed) →
    (of operations).host.Carries placed
  /-- A section that lives can be removed where edits are made, and it is gone
  then. -/
  removable : ∀ placed, Alive placed (of operations).story →
    (of operations).host.Accepts placed.target →
    ∃ after, (of operations).host.removeSection placed.target placed.handle =
      (.ok (), after) ∧
      ¬ after.Carries placed
  /-- What was removed under a handle is never removed again. -/
  once : ∀ earlier target handle later,
    operations = earlier ++ .removeSection target handle :: later →
    ((of earlier).host.removeSection target handle).1 = .ok () →
    ∀ other, ((of operations).host.removeSection other handle).1 ≠ .ok ()
  /-- Listed are the specs of the sections that live, the earliest first. -/
  listed : ∀ target, (of operations).host.sections target =
    ((created (of operations).story).filter fun placed =>
      placed.target = target ∧ Alive placed (of operations).story).map
        HostSection.spec
  /-- Edits that fail change nothing. -/
  addFails : ∀ target spec cause after,
    (of operations).host.addSection target spec = (.error cause, after) →
    after = (of operations).host
  removeFails : ∀ target handle cause after,
    (of operations).host.removeSection target handle = (.error cause, after) →
    after = (of operations).host
  manualFails : ∀ target spec,
    ((of operations).host.addManualSection target spec).1 = none →
    ((of operations).host.addManualSection target spec).2 = (of operations).host
  /-- No target is wired to a combinator twice. -/
  wired : ∀ combinator, ((of operations).host.wiring combinator).Nodup

/-- A host keeps its promises as long as its handles do not come round. -/
theorem honours {operations : List HostOperation} (few : (of operations).Few) :
    Honours operations where
  distinct := handles_nodup few
  carried := (told_of few).carried
  lasting earlier later placed split carried spared := by
    subst split
    exact carries_later earlier later few carried spared
  removable placed alive accepts := by
    have carried := ((told_of few).carried placed).mpr alive
    obtain ⟨after, removed⟩ := carried.removeSection accepts
    refine ⟨after, removed, fun still => ?_⟩
    exact ((MemoryHost.carries_removeSection removed).mp still).2 ⟨rfl, rfl⟩
  once earlier target handle later split removed other := by
    subst split
    exact removed_once earlier later few removed
  listed target := by
    rw [MemoryHost.sections_eq_map, sectionList_of few, List.map_map]
    rfl
  addFails _ _ _ _ failed := MemoryHost.addSection_error failed
  removeFails _ _ _ _ failed := MemoryHost.removeSection_error failed
  manualFails _ _ := MemoryHost.addManualSection_none
  wired := wiring_nodup operations

/-- Two targets, one of them spawned anew, with sections by hand and others, a
removal and refused edits. -/
def busyRun : List HostOperation :=
  [.change (.addTarget ⟨1⟩), .addSection ⟨1⟩ World.iron,
    .change (.addManualSection ⟨1⟩ World.iron), .change (.addTarget ⟨2⟩),
    .addSection ⟨2⟩ World.iron, .removeSection ⟨1⟩ ⟨0⟩,
    .change (.addTarget ⟨2⟩),
    .addSection ⟨2⟩ World.iron, .change (.reject ⟨1⟩ "full"),
    .addSection ⟨1⟩ World.iron,
    .removeSection ⟨1⟩ ⟨1⟩, .change (.connect ⟨7⟩ ⟨1⟩),
    .change (.connect ⟨7⟩ ⟨1⟩)]

theorem honours_busyRun :
    (created (of busyRun).story).map HostSection.handle = [⟨0⟩, ⟨1⟩, ⟨2⟩, ⟨3⟩] ∧
      Honours busyRun := by
  have handles : (created (of busyRun).story).map HostSection.handle =
      [⟨0⟩, ⟨1⟩, ⟨2⟩, ⟨3⟩] := by decide
  have few : (of busyRun).Few := by
    have count := congrArg List.length handles
    rw [List.length_map] at count
    rw [Few, count]
    decide
  exact ⟨handles, honours few⟩

end HostRun

end CircuitSections
