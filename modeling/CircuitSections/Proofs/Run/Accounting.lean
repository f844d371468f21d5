import CircuitSections.Proofs.Run.Happening

/-!
# Accounting for sections

The ledger and the host are changed by separate calls, each of which may fail.
Still no section gets lost: as long as no ledger is loaded and targets are
forgotten only when they are gone, what passes made and is still on the host is
tracked, or was reported as displaced.  The invariant is `Accounted`;
`every_section_accounted` is what follows from it for runs.
-/

namespace CircuitSections

/-- The target of the entry was neither spawned nor destroyed since the section
of the entry was made. -/
def TrackedSection.StandsIn (entry : TrackedSection)
    (log : List Event) : Prop :=
  Since (.created (.pass entry.owner) entry.placed) (.cleared entry.target) log

/-- Every section that a pass made and that is still there is in the books
exactly once, and every tracked section is there unless its target was
cleared. -/
structure Accounted (scene : Scene) : Prop where
  made : ∀ entry, entry ∈ scene.ledger.entries ∨ entry ∈ scene.orphaned →
    Event.created (.pass entry.owner) entry.placed ∈ scene.log
  apart : ∀ entry ∈ scene.ledger.entries, ∀ other ∈ scene.orphaned,
    entry.handle ≠ other.handle
  once : (scene.orphaned.map TrackedSection.handle).Nodup
  covered : ∀ id placed, Event.created (.pass id) placed ∈ scene.log →
    scene.host.Carries placed →
    ∃ entry, (entry ∈ scene.ledger.entries ∨ entry ∈ scene.orphaned) ∧
      entry.placed = placed
  live : ∀ entry ∈ scene.ledger.entries, entry.StandsIn scene.log →
    scene.host.Carries entry.placed

namespace Accounted

variable {before after : Scene}

theorem start : Accounted ⟨.empty, .empty, [], []⟩ where
  made entry member := by simp at member
  apart entry member := by simp at member
  once := List.nodup_nil
  covered id placed created := absurd created List.not_mem_nil
  live entry member := by simp at member

/-- Nothing is lost where an entry goes only with its section. -/
theorem of_fewer (accounted : Accounted before) (notes : List Event)
    (orphaned : after.orphaned = before.orphaned)
    (log : after.log = before.log ++ notes) (silent : creations notes = [])
    (kept : ∀ entry ∈ after.ledger.entries, entry ∈ before.ledger.entries)
    (fewer : ∀ placed, after.host.Carries placed → before.host.Carries placed)
    (tracked : ∀ entry ∈ before.ledger.entries,
      after.host.Carries entry.placed →
      entry ∈ after.ledger.entries)
    (stays : ∀ entry ∈ after.ledger.entries,
      Event.cleared entry.target ∉ notes →
      before.host.Carries entry.placed → after.host.Carries entry.placed) :
    Accounted after := by
  have old (maker : Maker) (placed : HostSection) :
      Event.created maker placed ∉ notes := by
    intro member
    have listed := mem_creations.mpr member
    rw [silent] at listed
    exact List.not_mem_nil listed
  constructor
  · intro entry member
    rw [orphaned] at member
    rw [log]
    exact List.mem_append_left _
      (accounted.made entry (member.imp_left (kept entry)))
  · intro entry member other displaced
    rw [orphaned] at displaced
    exact accounted.apart entry (kept entry member) other displaced
  · rw [orphaned]
    exact accounted.once
  · intro id placed created carried
    rw [log] at created
    have createdBefore := (List.mem_append.mp created).resolve_right (old _ _)
    obtain ⟨entry, listed, rfl⟩ :=
      accounted.covered id placed createdBefore (fewer placed carried)
    rw [orphaned]
    exact ⟨entry, listed.imp_left fun member =>
      tracked entry member carried, rfl⟩
  · intro entry member stands
    rw [log] at stands
    obtain ⟨stood, uncleared⟩ := Since.of_append stands (old _ _)
    exact stays entry member uncleared
      (accounted.live entry (kept entry member) stood)

theorem eq_of_handle_eq (accounted : Accounted before)
    (numbered : Numbered before.host before.log) (few : Few before.log)
    {a b : TrackedSection} (left : a ∈ before.ledger.entries)
    (right : b ∈ before.ledger.entries) (same : a.handle = b.handle) :
    a = b := by
  have placed := (numbered.unique few (accounted.made a (.inl left))
    (accounted.made b (.inl right)) same).2
  refine Ledger.eq_of_place_eq left right ?_
  have targets : a.target = b.target := congrArg HostSection.target placed
  have specs : a.spec = b.spec := congrArg HostSection.spec placed
  simp [TrackedSection.place, targets, specs]

/-- A new section of an owner is tracked, and the entry that it displaces is
reported. -/
theorem inject (accounted : Accounted before)
    (numbered : Numbered before.host before.log) (few : Few before.log)
    {owner : CombinatorId} {tick : UInt64} {target : TargetId} {state : Target}
    {spec : SectionSpec} (found : before.host.targets target = some state) :
    Accounted
      { ledger := (before.ledger.record
        ⟨target, spec, owner, ⟨before.host.nextHandle⟩, tick⟩).2
        host := (before.host.create target state spec).2
        log := before.log ++
          [.created (.pass owner) ⟨target, ⟨before.host.nextHandle⟩, spec⟩]
        orphaned := before.orphaned ++
          (before.ledger.get? target spec).toList } := by
  let new : TrackedSection :=
    ⟨target, spec, owner, ⟨before.host.nextHandle⟩, tick⟩
  have fresh (entry : TrackedSection)
      (listed : entry ∈ before.ledger.entries ∨ entry ∈ before.orphaned) :
      entry.handle ≠ ⟨before.host.nextHandle⟩ :=
    numbered.fresh few (accounted.made entry listed)
  have displacedTracked (entry : TrackedSection)
      (displaced : entry ∈ (before.ledger.get? target spec).toList) :
      entry ∈ before.ledger.entries ∧ entry.place = new.place := by
    obtain ⟨member, targets, specs⟩ :=
      Ledger.get?_eq_some_iff.mp (Option.mem_toList.mp displaced)
    exact ⟨member, by simp [TrackedSection.place, new, targets, specs]⟩
  constructor
  · intro entry listed
    dsimp only at listed ⊢
    rcases listed with tracked | reported
    · rcases Ledger.mem_record.mp tracked with rfl | ⟨old, _⟩
      · exact List.mem_append_right _ List.mem_cons_self
      · exact List.mem_append_left _ (accounted.made entry (.inl old))
    · rcases List.mem_append.mp reported with old | displaced
      · exact List.mem_append_left _ (accounted.made entry (.inr old))
      · exact List.mem_append_left _
          (accounted.made entry (.inl (displacedTracked entry displaced).1))
  · intro entry tracked other reported
    dsimp only at tracked reported
    have known : other ∈ before.ledger.entries ∨ other ∈ before.orphaned := by
      rcases List.mem_append.mp reported with old | displaced
      · exact .inr old
      · exact .inl (displacedTracked other displaced).1
    rcases Ledger.mem_record.mp tracked with rfl | ⟨old, elsewhere⟩
    · exact (fresh other known).symm
    · rcases List.mem_append.mp reported with before' | displaced
      · exact accounted.apart entry old other before'
      · intro same
        obtain ⟨otherTracked, place⟩ := displacedTracked other displaced
        have equal :=
          accounted.eq_of_handle_eq numbered few old otherTracked same
        exact elsewhere (equal ▸ place)
  · dsimp only
    rw [List.map_append, List.nodup_append]
    refine ⟨accounted.once, ?_, ?_⟩
    · cases before.ledger.get? target spec <;> simp
    · intro handle old other displaced
      obtain ⟨reported, listed, rfl⟩ := List.mem_map.mp old
      obtain ⟨entry, member, rfl⟩ := List.mem_map.mp displaced
      exact (accounted.apart entry (displacedTracked entry member).1
        reported listed).symm
  · intro id placed created carried
    dsimp only at created carried ⊢
    rcases (MemoryHost.carries_create found).mp carried with
      rfl | ⟨still, apart⟩
    · exact ⟨new, .inl (Ledger.mem_record.mpr (.inl rfl)), rfl⟩
    · have createdBefore : Event.created (.pass id) placed ∈ before.log := by
        rcases List.mem_append.mp created with old | last
        · exact old
        · obtain ⟨_, rfl⟩ := Event.created.inj (List.mem_singleton.mp last)
          exact absurd ⟨rfl, rfl⟩ apart
      obtain ⟨entry, listed, rfl⟩ :=
        accounted.covered id placed createdBefore still
      refine ⟨entry, ?_, rfl⟩
      rcases listed with tracked | reported
      · by_cases same : entry.place = new.place
        · have shown : before.ledger.get? target spec = some entry := by
            obtain ⟨targets, specs⟩ := SlotKey.mk.inj same
            exact Ledger.get?_eq_some_iff.mpr ⟨tracked, targets, specs⟩
          exact .inr (List.mem_append_right _ (by simp [shown]))
        · exact .inl (Ledger.mem_record.mpr (.inr ⟨tracked, same⟩))
      · exact .inr (List.mem_append_left _ reported)
  · intro entry tracked stands
    dsimp only at tracked stands ⊢
    rcases Ledger.mem_record.mp tracked with rfl | ⟨old, _⟩
    · exact (MemoryHost.carries_create found).mpr (.inl rfl)
    · have new' := fresh entry (.inl old)
      have stood := (Since.of_append stands fun last => by
        obtain ⟨_, same⟩ := Event.created.inj (List.mem_singleton.mp last)
        exact new' (congrArg HostSection.handle same)).1
      exact (MemoryHost.carries_create found).mpr
        (.inr ⟨accounted.live entry old stood, fun hit => new' hit.2⟩)

/-- The section of a player is not in the books. -/
theorem byHand (accounted : Accounted before)
    (numbered : Numbered before.host before.log) (few : Few before.log)
    {target : TargetId} {state : Target}
    (found : before.host.targets target = some state) (spec : SectionSpec) :
    Accounted
      { before with
        host := (before.host.create target state spec).2
        log := before.log ++
          [.created .hand ⟨target, ⟨before.host.nextHandle⟩, spec⟩] } := by
  have old {id : CombinatorId} {placed : HostSection}
      (created : Event.created (.pass id) placed ∈ before.log ++
        [.created .hand ⟨target, ⟨before.host.nextHandle⟩, spec⟩]) :
      Event.created (.pass id) placed ∈ before.log := by
    rcases List.mem_append.mp created with earlier | last
    · exact earlier
    · cases (Event.created.inj (List.mem_singleton.mp last)).1
  constructor
  · intro entry listed
    exact List.mem_append_left _ (accounted.made entry listed)
  · exact accounted.apart
  · exact accounted.once
  · intro id placed created carried
    have createdBefore := old created
    rcases (MemoryHost.carries_create found).mp carried with rfl | ⟨still, _⟩
    · exact absurd rfl (numbered.fresh few createdBefore)
    · exact accounted.covered id placed createdBefore still
  · intro entry tracked stands
    have stood := (Since.of_append stands fun last => by
      cases (Event.created.inj (List.mem_singleton.mp last)).1).1
    have fresh := numbered.fresh few (accounted.made entry (.inl tracked))
    exact (MemoryHost.carries_create found).mpr
      (.inr ⟨accounted.live entry tracked stood, fun hit => fresh hit.2⟩)

/-- Forgetting the entry of a section that is no longer there loses nothing. -/
theorem forget (accounted : Accounted before) {target : TargetId}
    {spec : SectionSpec} {entry : TrackedSection}
    (found : before.ledger.get? target spec = some entry) {host : MemoryHost}
    (carries : ∀ placed, host.Carries placed ↔ before.host.Carries placed ∧
      ¬ (placed.target = target ∧ placed.handle = entry.handle))
    (numbered : Numbered before.host before.log) (few : Few before.log) :
    Accounted { before with
      ledger := (before.ledger.forget target spec).2, host } := by
  obtain ⟨member, targets, specs⟩ := Ledger.get?_eq_some_iff.mp found
  have placeEq : entry.place = ⟨target, spec.key⟩ := by
    simp [TrackedSection.place, targets, specs]
  refine accounted.of_fewer [] rfl (by simp) rfl ?_ ?_ ?_ ?_
  · exact fun other kept => (Ledger.mem_forget.mp kept).1
  · exact fun placed carried => ((carries placed).mp carried).1
  · intro other tracked carried
    refine Ledger.mem_forget.mpr ⟨tracked, fun same => ?_⟩
    have equal := Ledger.eq_of_place_eq tracked member (same.trans placeEq.symm)
    subst equal
    exact ((carries other.placed).mp carried).2 ⟨targets, rfl⟩
  · intro other kept _ carried
    obtain ⟨tracked, elsewhere⟩ := Ledger.mem_forget.mp kept
    refine (carries other.placed).mpr ⟨carried, fun hit => elsewhere ?_⟩
    rw [accounted.eq_of_handle_eq numbered few tracked member hit.2, placeEq]

theorem edit {owner : CombinatorId} {tick : UInt64}
    {wanted : TargetId → SectionSpec → Prop}
    (edit : Edit owner tick wanted before after)
    (numbered : Numbered before.host before.log) (few : Few before.log)
    (accounted : Accounted before) : Accounted after := by
  cases edit with
  | @drop target gone =>
      refine accounted.of_fewer [] rfl (by simp) rfl ?_ ?_ ?_ ?_
      · exact fun entry kept => (Ledger.mem_forgetOwnedOn.mp kept).1
      · exact fun placed carried => carried
      · intro entry tracked carried
        refine Ledger.mem_forgetOwnedOn.mpr ⟨tracked, fun hit => ?_⟩
        have missing : before.host.targets entry.placed.target = none := by
          rw [← gone, ← hit.2]
          rfl
        exact MemoryHost.not_carries_of_missing missing carried
      · exact fun entry _ _ carried => carried
  | remove found _ removed =>
      exact accounted.forget found
        (fun _ => MemoryHost.carries_removeSection removed) numbered few
  | lose found _ absent =>
      refine accounted.forget found (fun placed => ?_) numbered few
      exact ⟨fun carried => ⟨carried, absent placed carried⟩, fun carried =>
        carried.1⟩
  | inject _ _ added =>
      obtain ⟨state, found, made⟩ := MemoryHost.addSection_ok added
      obtain ⟨rfl, rfl⟩ := Prod.mk.inj made
      exact accounted.inject numbered few found

end Accounted

/-- Whatever happens, sections stay accounted for, unless a ledger is loaded or
a target is forgotten that is still there. -/
theorem Happening.accounted {before after : Scene}
    (happening :
      Happening (fun _ => False) (fun host target => host.targets target = none)
        before after)
    (numbered : Numbered before.host before.log) (few : Few after.log)
    (accounted : Accounted before) : Accounted after := by
  have fewBefore := few.of_earlier happening.log_grows
  cases happening with
  | edit edit => exact accounted.edit edit numbered fewBefore
  | ruled id =>
      exact accounted.of_fewer [.ruled id] rfl rfl rfl (fun _ kept => kept)
        (fun _ carried => carried)
        (fun _ tracked _ => tracked) fun _ _ _ carried => carried
  | passed id =>
      exact accounted.of_fewer [.passed id] rfl rfl rfl (fun _ kept => kept)
        (fun _ carried => carried)
        (fun _ tracked _ => tracked) fun _ _ _ carried => carried
  | @forgot _ target gone =>
      refine accounted.of_fewer [] rfl (by simp) rfl ?_ ?_ ?_ ?_
      · exact fun entry kept => (Ledger.mem_forgetTarget.mp kept).1
      · exact fun placed carried => carried
      · intro entry tracked carried
        refine Ledger.mem_forgetTarget.mpr ⟨tracked, fun hit => ?_⟩
        have missing : before.host.targets entry.placed.target = none := by
          rw [← gone, ← hit]
          rfl
        exact MemoryHost.not_carries_of_missing missing carried
      · exact fun entry _ _ carried => carried
  | loaded impossible => exact impossible.elim
  | changed change =>
      rcases HostChange.cases_apply before.host change with
        ⟨target, events, _, carries⟩ |
          ⟨target, state, spec, found, events, applied⟩ |
        ⟨events, _, carries⟩
      · refine accounted.of_fewer [.cleared target] rfl (by simp [events]) rfl
          (fun _ kept => kept)
            (fun placed carried => ((carries placed).mp carried).1)
          (fun _ tracked _ => tracked) ?_
        intro entry _ uncleared carried
        refine (carries entry.placed).mpr ⟨carried, fun same => uncleared ?_⟩
        exact same ▸ List.mem_singleton.mpr rfl
      · have hand := accounted.byHand numbered fewBefore found spec
        rw [← applied, ← events] at hand
        exact hand
      · exact accounted.of_fewer [] rfl (by simp [events]) rfl
          (fun _ kept => kept)
          (fun placed carried => (carries placed).mp carried)
            (fun _ tracked _ => tracked)
          fun entry _ _ carried => (carries entry.placed).mpr carried

/-! ### Runs -/

/-- The entries of a list with a given handle. -/
def entriesWith (entries : List TrackedSection) (handle : SectionHandle) :
    List TrackedSection :=
  entries.filter fun entry => entry.handle = handle

theorem entriesWith_eq_nil {entries : List TrackedSection}
    {handle : SectionHandle}
    (absent : ∀ entry ∈ entries, entry.handle ≠ handle) :
      entriesWith entries handle = [] := by
  refine List.filter_eq_nil_iff.mpr fun entry member => ?_
  simpa using absent entry member

theorem entriesWith_eq_singleton {entries : List TrackedSection}
    {entry : TrackedSection} (distinct : entries.Nodup)
    (member : entry ∈ entries)
    (only : ∀ other ∈ entries, other.handle = entry.handle → other = entry) :
    entriesWith entries entry.handle = [entry] := by
  refine List.perm_singleton.mp
    ((List.perm_ext_iff_of_nodup (distinct.filter _)
      (List.nodup_singleton entry)).mpr ?_)
  intro other
  simp only [List.mem_filter, decide_eq_true_eq, List.mem_singleton]
  constructor
  · intro both
    obtain ⟨listed, same⟩ := both
    exact only other listed same
  · rintro rfl
    exact ⟨member, rfl⟩

namespace World

/-- Targets are forgotten only when the host does not have them. -/
def ForgetsOnlyGone (world : MemoryWorld)
    (operations : List (Operation HostChange)) : Prop :=
  ∀ earlier target later, operations =
    earlier ++ .noteDestroyed target :: later →
    (world.run earlier).host.targets target = none

theorem accounted_run {limits : Limits} {ids : RuleIdSupply}
    {operations : List (Operation HostChange)}
    (unloaded : ∀ entries, Operation.restoreLedger entries ∉ operations)
    (gone : (start limits ids).ForgetsOnlyGone operations)
    (few : Few ((start limits ids).run operations).log) :
    Accounted ((start limits ids).run operations).scene := by
  refine run_keeps (fun world => Few world.log → Accounted world.scene)
    ?_ ?_ operations
    (List.prefix_refl _) few
  · exact fun _ => Accounted.start
  · intro earlier operation later split known few
    have allowed : operation.Allowed (fun _ => False)
        (fun host target => host.targets target = none)
        ((start limits ids).run earlier).host := by
      cases operation with
      | restoreLedger entries => exact unloaded entries (by simp [split])
      | noteDestroyed target => exact gone earlier target later split
      | _ => trivial
    have happenings :=
      perform_happens ((start limits ids).run earlier) operation allowed
    exact happenings.keep Accounted Happening.accounted
      (numbered_run limits ids earlier) few
      (known earlier (List.prefix_refl _) (few.of_earlier happenings.log_grows))

/-- In every run that loads no ledger, forgets only targets that are gone and
does not exhaust the handles, each section that a pass made and that is still on
the host is tracked by exactly one entry or was reported as displaced exactly
once, and not both.  Each tracked section was made by a pass of its owner and is
on its target, unless the target was destroyed or spawned anew since then. -/
theorem every_section_accounted {limits : Limits} {ids : RuleIdSupply}
    {operations : List (Operation HostChange)}
    (unloaded : ∀ entries, Operation.restoreLedger entries ∉ operations)
    (gone : (start limits ids).ForgetsOnlyGone operations)
    (few : Few ((start limits ids).run operations).log) :
    let world := (start limits ids).run operations
    let tracked := world.engine.ledger.entries
    let orphaned := world.reports.flatMap PassReport.orphaned
    (∀ id placed, Event.created (.pass id) placed ∈ world.log →
      world.host.Carries placed →
      ∃ entry, entry.placed = placed ∧
        (entriesWith tracked placed.handle = [entry] ∧
          entriesWith orphaned placed.handle = [] ∨
          entriesWith tracked placed.handle = [] ∧
            entriesWith orphaned placed.handle = [entry])) ∧
    (∀ entry ∈ tracked, Event.created (.pass entry.owner) entry.placed ∈
      world.log ∧
      (entry.StandsIn world.log → world.host.Carries entry.placed)) := by
  intro world tracked orphaned
  have accounted := accounted_run unloaded gone few
  have numbered := numbered_run limits ids operations
  constructor
  · intro id placed created carried
    obtain ⟨entry, listed, rfl⟩ := accounted.covered id placed created carried
    refine ⟨entry, rfl, ?_⟩
    rcases listed with member | member
    · refine .inl
        ⟨entriesWith_eq_singleton (Ledger.entries_nodup _) member ?_, ?_⟩
      · intro other otherMember same
        exact accounted.eq_of_handle_eq numbered few otherMember member same
      · exact entriesWith_eq_nil fun other displaced same =>
          accounted.apart entry member other displaced same.symm
    · refine .inr ⟨?_, entriesWith_eq_singleton accounted.once.of_map member ?_⟩
      · exact entriesWith_eq_nil fun other otherMember same =>
          accounted.apart other otherMember entry member same
      · intro other otherMember same
        exact List.inj_on_of_nodup_map accounted.once otherMember member same
  · intro entry member
    exact ⟨accounted.made entry (.inl member), accounted.live entry member⟩

/-- A second combinator puts iron where another one has it, and a target is
reported as destroyed that never was there. -/
def takeoverRun : List (Operation HostChange) :=
  ironRun ++ [.change (.connect ⟨8⟩ ⟨1⟩), .add ⟨8⟩ [ironRule], .evaluate ⟨8⟩ 6]

theorem every_section_accounted_takeover :
    let world := (start .default ⟨0⟩).run (takeoverRun ++ [.noteDestroyed ⟨2⟩])
    world.host.Carries ⟨⟨1⟩, ⟨0⟩, iron⟩ ∧ world.host.Carries ⟨⟨1⟩, ⟨1⟩, iron⟩ ∧
      ∃ entry, entry.placed = ⟨⟨1⟩, ⟨0⟩, iron⟩ ∧
        (entriesWith world.engine.ledger.entries ⟨0⟩ = [entry] ∧
          entriesWith (world.reports.flatMap PassReport.orphaned) ⟨0⟩ = [] ∨
        entriesWith world.engine.ledger.entries ⟨0⟩ = [] ∧
          entriesWith (world.reports.flatMap PassReport.orphaned)
            ⟨0⟩ = [entry]) := by
  have gone : (start .default ⟨0⟩).ForgetsOnlyGone
      (takeoverRun ++ [.noteDestroyed ⟨2⟩]) := by
    intro earlier target later split
    rcases split_concat split with ⟨rfl, same⟩ | ⟨rest, front⟩
    · cases same
      rfl
    · have listed : Operation.noteDestroyed target ∈ takeoverRun := by
        simp [front]
      simp [takeoverRun, ironRun] at listed
  have accounted :=
    every_section_accounted (by simp [takeoverRun, ironRun]) gone
      (by unfold Few; decide +kernel)
  exact ⟨by decide +kernel, by decide +kernel,
    accounted.1 ⟨7⟩ ⟨⟨1⟩, ⟨0⟩, iron⟩ (by decide +kernel) (by decide +kernel)⟩

end World

end CircuitSections
