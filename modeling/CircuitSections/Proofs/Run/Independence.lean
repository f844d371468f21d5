import CircuitSections.Proofs.Combinator.Footprint
import CircuitSections.Proofs.Engine.Restoring
import CircuitSections.Proofs.Run.Reach

/-!
# Independent combinators

Combinators are independent when none goes for a section that another one has or
goes for.  Their passes may then be made in any order.  `Served` tells how the
world is after some of the passes, each as if it was made alone from the start;
it depends on the order only in the handles of new sections.
-/

namespace CircuitSections

namespace Ledger

/-- What two ledgers have at a place, the same but for the handle of a free
entry. -/
inductive SameSlot (free : TrackedSection → Prop) :
    Option (SectionSpec × TrackedSection) →
      Option (SectionSpec × TrackedSection) → Prop
  | same (slot : Option (SectionSpec × TrackedSection)) :
      SameSlot free slot slot
  | renumbered {spelling : SectionSpec} {entry : TrackedSection}
      (handle : SectionHandle) :
      free entry → SameSlot free (some (spelling, entry))
        (some (spelling, { entry with handle }))

theorem SameSlot.mono {free more : TrackedSection → Prop}
    {here there : Option (SectionSpec × TrackedSection)}
    (same : SameSlot free here there)
    (weaker : ∀ entry, free entry → more entry) : SameSlot more here there := by
  cases same with
  | same => exact .same _
  | renumbered handle isFree => exact .renumbered handle (weaker _ isFree)

/-- Ledgers that differ in the handles of free entries only. -/
def SameUpToHandles (free : TrackedSection → Prop)
    (ledger other : Ledger) : Prop :=
  ∀ place, SameSlot free (ledger.at? place) (other.at? place)

end Ledger

/-- The entry is that of a section which the report lists as added. -/
def PassReport.Adds (report : PassReport) (entry : TrackedSection) : Prop :=
  entry.owner = report.combinator ∧ entry.injectedAt = report.tick ∧
    (entry.target, entry.spec) ∈ report.injected

namespace World

/-- No combinator goes for a section in its next pass that another one has or
goes for. -/
def Independent (world : MemoryWorld) (tick : UInt64) : Prop :=
  ∀ a ∈ world.engine.combinators.toList, ∀ b ∈ world.engine.combinators.toList,
    a.id ≠ b.id →
    ∀ target ∈ a.targetsOn world.host,
      ∀ spec ∈ (a.desiredOn tick world.host).toList,
      ¬ b.Touches tick world.engine.ledger world.host ⟨target, spec.key⟩

instance (world : MemoryWorld) (tick : UInt64) :
    Decidable (world.Independent tick) :=
  inferInstanceAs
    (Decidable (∀ a ∈ _, ∀ b ∈ _, _ → ∀ target ∈ _, ∀ spec ∈ _, _))

theorem Independent.apart {world : MemoryWorld} {tick : UInt64}
    (independent : world.Independent tick) {a b : Combinator}
    (aHeld : a ∈ world.engine.combinators.toList)
    (bHeld : b ∈ world.engine.combinators.toList) (other : a.id ≠ b.id)
    {place : SlotKey}
    (touched : a.Touches tick world.engine.ledger world.host place) :
    ¬ b.Touches tick world.engine.ledger world.host place := by
  have apart {a b : Combinator} (aHeld : a ∈ world.engine.combinators.toList)
      (bHeld : b ∈ world.engine.combinators.toList) (other : a.id ≠ b.id)
      (aims : a.Aims tick world.host place) :
      ¬ b.Touches tick world.engine.ledger world.host place := by
    obtain ⟨listed, contained⟩ := aims
    obtain ⟨spec, wanted, same⟩ := Ascending.contains_iff.mp contained
    have free :=
      independent a aHeld b bHeld other place.target listed spec wanted
    rwa [same] at free
  rcases touched with owns | aims
  · rintro (owned | aimed)
    · exact other (owns.unique owned)
    · exact apart bHeld aHeld (Ne.symm other) aimed (.inl owns)
  · exact apart aHeld bHeld other aims

section Served

variable (world : MemoryWorld) (tick : UInt64)

/-- The pass of a combinator, made from the world as it is. -/
def alone (combinator : Combinator) :
    PassReport × Combinator × Ledger × MemoryHost :=
  combinator.pass tick world.engine.ledger world.host

/-- The world after the passes of some combinators. -/
structure Served (done : List Combinator) (after : MemoryWorld) : Prop where
  combinators : after.engine.combinators =
    done.foldl
      (fun held combinator => held.put (world.alone tick combinator).2.1)
      world.engine.combinators
  reports : after.reports =
    world.reports ++ done.map fun combinator => (world.alone tick combinator).1
  channels : after.host.channels = world.host.channels
  wiring : after.host.wiring = world.host.wiring
  access : ∀ target, after.host.access target = world.host.access target
  untouched : ∀ place,
    (∀ combinator ∈ done, ¬ combinator.Touches tick world.engine.ledger
      world.host place) →
    after.engine.ledger.at? place = world.engine.ledger.at? place
  touched : ∀ combinator ∈ done, ∀ place,
    combinator.Touches tick world.engine.ledger world.host place → ∃ handle,
      after.engine.ledger.at? place =
        combinator.leaves tick world.host handle place
          (world.engine.ledger.at? place)
  made : (creations after.log).length = (creations world.log).length +
    (done.flatMap fun combinator =>
      (world.alone tick combinator).1.injected).length
  edited : Few after.log → world.host.Edited after.host
    (done.flatMap fun combinator =>
      (world.alone tick combinator).1.gone world.engine.ledger)
    (done.flatMap fun combinator => (world.alone tick combinator).1.injected)

end Served

namespace Served

variable {past others : List Engine} {world after : MemoryWorld} {tick : UInt64}
  {done : List Combinator} {combinator : Combinator}

theorem start (world : MemoryWorld) (tick : UInt64) :
    Served world tick [] world where
  combinators := rfl
  reports := (List.append_nil _).symm
  channels := rfl
  wiring := rfl
  access _ := rfl
  untouched _ _ := rfl
  touched _ member := absurd member List.not_mem_nil
  made := rfl
  edited _ := .refl world.host

/-- To a combinator that had no pass yet, the world looks as it was. -/
theorem alike (served : Served world tick done after)
    (apart : ∀ other ∈ done, other.id ≠ combinator.id ∧
      ∀ place, combinator.Touches tick world.engine.ledger world.host place →
        ¬ other.Touches tick world.engine.ledger world.host place) :
    combinator.Alike tick world.engine.ledger world.host after.engine.ledger
      after.host where
  channels := served.channels
  wiring := served.wiring
  access := served.access
  there place touched :=
    served.untouched place fun other member =>
      (apart other member).2 place touched
  owned place owns := by
    obtain ⟨entry, member, owned, here⟩ := owns
    have found := Ledger.mem_entries_iff_at?.mp member
    have before : (world.engine.ledger.at? entry.place).map Prod.snd =
        some entry := by
      rw [here] at found ⊢
      by_cases changed : ∃ other ∈ done,
        other.Touches tick world.engine.ledger world.host place
      · -- The pass of another combinator leaves nothing new to this one.
        obtain ⟨other, listed, touched⟩ := changed
        obtain ⟨handle, left⟩ := served.touched other listed place touched
        obtain ⟨⟨spelling, _⟩, there, rfl⟩ := Option.map_eq_some_iff.mp found
        refine Combinator.owner_leaves (fun same => ?_) (left.symm.trans there)
        exact (apart other listed).1 (same.symm.trans owned)
      · have free := served.untouched place fun other listed touched =>
          changed ⟨other, listed, touched⟩
        rwa [free] at found
    exact .inl ⟨entry, Ledger.mem_entries_iff_at?.mpr before, owned, here⟩

theorem still_held (served : Served world tick done after)
    (held : combinator ∈ world.engine.combinators.toList)
    (apart : (done ++ [combinator]).Pairwise fun a b => a.id ≠ b.id) :
    after.engine.combinator? combinator.id = some combinator := by
  obtain ⟨doneApart, _, lastApart⟩ := List.pairwise_append.mp apart
  apply Ascending.find?_key
  rw [served.combinators]
  refine (Ascending.mem_foldl_put_map (fun combinator => ?_) doneApart).mpr
    (.inr ⟨held, fun other member =>
      lastApart other member combinator List.mem_cons_self⟩)
  exact Combinator.pass_id combinator tick world.engine.ledger world.host

theorem few (served : Served world tick done after) (few : Few after.log) :
    Few world.log := by
  rw [Few, served.made] at few
  exact Nat.lt_of_le_of_lt (Nat.le_add_right _ _) few

/-- The next pass, of a combinator that had none yet, is as if it was made
alone. -/
theorem next (served : Served world tick done after) (sound : Sound past world)
    (soundAfter : Sound others after) (independent : world.Independent tick)
    (held : ∀ other ∈ done ++ [combinator],
      other ∈ world.engine.combinators.toList)
    (apart : (done ++ [combinator]).Pairwise fun a b => a.id ≠ b.id) :
    Served world tick (done ++ [combinator])
      (after.turn tick combinator.id) := by
  have here : combinator ∈ world.engine.combinators.toList :=
    held combinator (by simp)
  have others : ∀ other ∈ done, other.id ≠ combinator.id ∧
      ∀ place, combinator.Touches tick world.engine.ledger world.host place →
        ¬ other.Touches tick world.engine.ledger world.host place := by
    intro other member
    have distinct : other.id ≠ combinator.id :=
      (List.pairwise_append.mp apart).2.2 other member combinator
        List.mem_cons_self
    exact ⟨distinct, fun place touched => independent.apart here
      (held other (List.mem_append_left _ member)) (Ne.symm distinct) touched⟩
  have found := served.still_held here apart
  have once := sound.once (Ascending.find?_key here)
  have alike := served.alike others
  obtain ⟨sameReport, sameCombinator⟩ := alike.pass once
  have turned := turn_of_some tick found
  have ledger : (after.turn tick combinator.id).engine.ledger =
      (combinator.pass tick after.engine.ledger after.host).2.2.1 :=
    congrArg (fun world => world.engine.ledger) turned
  have frame := turn_frame after tick combinator.id
  constructor
  · rw [turned, List.foldl_append, ← served.combinators]
    exact congrArg after.engine.combinators.put sameCombinator
  · rw [turned, List.map_append, ← List.append_assoc, ← served.reports]
    exact congrArg (after.reports ++ [·]) sameReport
  · exact frame.1.trans served.channels
  · exact frame.2.trans served.wiring
  · intro target
    rw [turned]
    exact (combinator.access_pass tick after.engine.ledger
      after.host target).trans
      (served.access target)
  · intro place untouched
    obtain ⟨earlier, last⟩ := List.forall_mem_append.mp untouched
    rw [ledger, alike.untouched (last combinator List.mem_cons_self)]
    exact served.untouched place earlier
  · intro other member place touched
    rw [ledger]
    rcases List.mem_append.mp member with earlier | last
    · rw [alike.untouched fun both =>
        (others other earlier).2 place both touched]
      exact served.touched other earlier place touched
    · rw [List.mem_singleton.mp last] at touched ⊢
      rw [← alike.there place touched]
      exact alike.at?_pass place
  · rw [turn_made tick found, served.made, sameReport, List.flatMap_append,
      List.length_append, Nat.add_assoc, List.flatMap_singleton]
    rfl
  · intro few
    have fewAfter : Few after.log :=
      few.of_earlier (perform_log_grows after (.evaluate combinator.id tick))
    have edited := soundAfter.edited_turn found few
    rw [sameReport, alike.gone once] at edited
    -- What the pass removes was there at the start, so it is not a section of
    -- an earlier pass.
    have old :
        ∀ pair ∈ (world.alone tick combinator).1.gone world.engine.ledger,
        pair.2.number.toNat < world.host.nextHandle.toNat := by
      intro pair member
      obtain ⟨entry, tracked, rfl⟩ :=
        (world.alone tick combinator).1.mem_gone member
      exact sound.issued (served.few fewAfter) [entry.target] entry tracked
        List.mem_cons_self
    rw [List.flatMap_append, List.flatMap_append, List.flatMap_singleton,
      List.flatMap_singleton]
    exact (served.edited fewAfter).trans edited old

end Served

/-- Passes of different combinators in any order are as if each was made
alone. -/
theorem served_turns {past : List Engine} {world : MemoryWorld}
    (sound : Sound past world) {tick : UInt64}
    (independent : world.Independent tick) {listed : List Combinator}
    (held : ∀ combinator ∈ listed, combinator ∈ world.engine.combinators.toList)
    (apart : listed.Pairwise fun a b => a.id ≠ b.id) :
    Served world tick listed (world.turns tick (listed.map Combinator.id)) := by
  induction listed using List.reverseRecOn with
  | nil => exact .start world tick
  | append_singleton done combinator ih =>
      obtain ⟨doneHeld, _⟩ := List.forall_mem_append.mp held
      have served := ih doneHeld (List.pairwise_append.mp apart).1
      obtain ⟨_, soundAfter⟩ := sound.turns tick (done.map Combinator.id)
      rw [List.map_append, turns, List.foldl_append]
      exact served.next sound soundAfter independent held apart

/-! ### Two orders -/

section Orders

variable {past : List Engine} {world : MemoryWorld} {tick : UInt64}
  {one two : List Combinator}
  {first second : MemoryWorld}

theorem Served.ledgers (served : Served world tick one first)
    (again : Served world tick two second)
    (once : ∀ combinator ∈ one, (combinator.targetsOn world.host).Nodup)
    (order : one.Perm two) :
    Ledger.SameUpToHandles
      (fun entry => ∃ combinator ∈ one,
        (world.alone tick combinator).1.Adds entry)
      first.engine.ledger second.engine.ledger := by
  intro place
  by_cases touched : ∃ combinator ∈ one,
      combinator.Touches tick world.engine.ledger world.host place
  · obtain ⟨combinator, listed, touches⟩ := touched
    obtain ⟨handle, left⟩ := served.touched combinator listed place touches
    obtain ⟨another, leftAgain⟩ :=
      again.touched combinator (order.mem_iff.mp listed) place touches
    rw [left, leftAgain]
    rcases Combinator.leaves_handles (once combinator listed) tick
      world.engine.ledger place with
      alike | ⟨spelling, spec, injected, new⟩
    · rw [alike handle another]
      exact .same _
    · obtain ⟨named, ticked⟩ :=
        combinator.pass_names tick world.engine.ledger world.host
      rw [new, new]
      refine .renumbered another
        ⟨combinator, listed, named.symm, ticked.symm, injected⟩
  · have free : ∀ combinator ∈ one,
        ¬ combinator.Touches tick world.engine.ledger world.host place :=
      fun combinator listed touches => touched ⟨combinator, listed, touches⟩
    rw [served.untouched place free,
      again.untouched place fun combinator listed =>
        free combinator (order.mem_iff.mpr listed)]
    exact .same _

theorem Served.sections (served : Served world tick one first)
    (again : Served world tick two second) (order : one.Perm two)
    (few : Few first.log) (target : TargetId) :
    (first.host.sections target).Perm (second.host.sections target) := by
  have added := order.flatMap_right fun combinator =>
    (world.alone tick combinator).1.injected
  have gone := order.flatMap_right fun combinator =>
    (world.alone tick combinator).1.gone world.engine.ledger
  have fewAgain : Few second.log := by
    rw [Few, served.made, added.length_eq, ← again.made] at few
    exact few
  obtain ⟨new, sections, specs, _⟩ := (served.edited few).sections target
  obtain ⟨newAgain, sectionsAgain, specsAgain, _⟩ :=
    (again.edited fewAgain).sections target
  rw [MemoryHost.sections_eq_map, MemoryHost.sections_eq_map,
    sections, sectionsAgain, List.map_append, List.map_append,
    specs, specsAgain]
  simp only [gone.mem_iff]
  exact ((added.filter _).map _).append_left _

end Orders

/-- What a combinator reports of a pass that is made from the world as it is. -/
def reportOf (world : MemoryWorld) (tick : UInt64)
    (id : CombinatorId) : PassReport :=
  match (world.engine.evaluate id tick world.host).1 with
  | .ok report => report
  | .error _ => ⟨id, tick, [], none, none⟩

theorem reportOf_held {world : MemoryWorld} {combinator : Combinator}
    (tick : UInt64) (held : combinator ∈ world.engine.combinators.toList) :
    world.reportOf tick combinator.id = (world.alone tick combinator).1 := by
  rw [reportOf, Engine.evaluate_of_some (Ascending.find?_key held)]
  rfl

/-- In every reached world, independent combinators have their passes in any
order, each once, as in a round: every pass reports what it reports when it is
made alone, and then the combinators are the same, the ledger is the same up to
the handles of the sections that the passes have added, and every target has the
same sections, in some order. -/
theorem independent_passes_commute {past : List Engine} {world : MemoryWorld}
    (reached : Reached past world) {tick : UInt64}
    (independent : world.Independent tick)
    (few : Few (world.perform (.evaluateAll tick)).log)
    {order : List CombinatorId} (all : order.Perm world.engine.combinatorIds) :
    let round := world.perform (.evaluateAll tick)
    let passes := world.run (order.map fun id => .evaluate id tick)
    round.reports = world.reports ++ world.engine.combinatorIds.map
      (world.reportOf tick) ∧
    passes.reports = world.reports ++ order.map (world.reportOf tick) ∧
    passes.engine.combinators = round.engine.combinators ∧
    Ledger.SameUpToHandles
      (fun entry => ∃ id ∈ order, (world.reportOf tick id).Adds entry)
      round.engine.ledger passes.engine.ledger ∧
    ∀ target,
      (passes.host.sections target).Perm (round.host.sections target) := by
  intro round passes
  have sound := reached.sound
  obtain ⟨listed, rfl, order⟩ := Engine.exists_listed all
  have apart := world.engine.combinators.keys_apart
  have inRound : Served world tick world.engine.combinators.toList round := by
    have served := served_turns sound independent (fun _ held => held) apart
    rwa [← Engine.combinatorIds, ← perform_evaluateAll] at served
  have inOrder : Served world tick listed passes := by
    have served :=
      served_turns sound independent (fun _ member => order.mem_iff.mp member)
        ((order.pairwise_iff fun {a b} => Ne.symm).mpr apart)
    rwa [turns_eq_run] at served
  have reports {chosen : List Combinator}
      (held : ∀ combinator ∈ chosen, combinator ∈
        world.engine.combinators.toList) :
      chosen.map (fun combinator => (world.alone tick combinator).1) =
        (chosen.map Combinator.id).map (world.reportOf tick) := by
    rw [List.map_map]
    exact List.map_congr_left fun combinator member =>
      (reportOf_held tick (held _ member)).symm
  refine ⟨?_, ?_, ?_, ?_, ?_⟩
  · rw [inRound.reports, reports fun _ held => held]
    rfl
  · rw [inOrder.reports, reports fun _ member => order.mem_iff.mp member]
  · have together {chosen : List Combinator}
        (all : chosen.Perm world.engine.combinators.toList) :=
      Ascending.foldl_put_perm (t := world.engine.combinators)
        (fun combinator =>
          combinator.pass_id tick world.engine.ledger world.host) all
        fun combinator held => ⟨combinator, held, rfl⟩
    rw [inOrder.combinators, inRound.combinators]
    exact (together order).trans (together (.refl _)).symm
  · have once : ∀ combinator ∈ world.engine.combinators.toList,
        (combinator.targetsOn world.host).Nodup :=
      fun _ held => sound.once (Ascending.find?_key held)
    have same := inRound.ledgers inOrder once order.symm
    intro place
    refine (same place).mono ?_
    rintro entry ⟨combinator, held, added⟩
    refine ⟨combinator.id,
      List.mem_map.mpr ⟨combinator, order.mem_iff.mpr held, rfl⟩, ?_⟩
    rwa [reportOf_held tick held]
  · exact fun target => (inRound.sections inOrder order.symm few target).symm

/-- An engine has put iron on a target. -/
def earlierShift : MemoryWorld :=
  (start .default ⟨0⟩).run
    [.change (.addTarget ⟨1⟩), .change (.addTarget ⟨2⟩),
      .change (.connect ⟨7⟩ ⟨2⟩), .add ⟨7⟩ [ironRule], .evaluate ⟨7⟩ 5]

/-- Another engine has loaded its ledger.  The iron belongs on the other target
by now, where a second combinator wants copper. -/
def laterShift : MemoryWorld :=
  { earlierShift with
    engine := { Engine.empty ⟨0⟩ with limits := .default } }.run
    [.restoreLedger earlierShift.engine.ledger.entries,
      .change (.disconnect ⟨7⟩ ⟨2⟩), .change (.connect ⟨7⟩ ⟨1⟩),
      .change (.connect ⟨8⟩ ⟨1⟩), .add ⟨7⟩ [ironRule],
      .add ⟨8⟩ [{ ironRule with spec := Combinator.copper }]]

theorem laterShift_reached : ∃ past, Reached past laterShift := by
  obtain ⟨past, reached⟩ : ∃ past, Reached past earlierShift :=
    (Reached.start .default ⟨0⟩).run (by simp [Operation.LoadsFrom])
  refine (reached.create .default ⟨0⟩).run (List.forall_mem_cons.mpr ⟨?_, ?_⟩)
  · exact fun entry tracked =>
      ⟨earlierShift.engine, List.mem_cons_self, tracked⟩
  · simp [Operation.LoadsFrom]

theorem independent_passes_commute_shift :
    let round := laterShift.perform (.evaluateAll 9)
    let passes := laterShift.run [.evaluate ⟨8⟩ 9, .evaluate ⟨7⟩ 9]
    laterShift.Independent 9 ∧ laterShift.engine.combinatorIds = [⟨7⟩, ⟨8⟩] ∧
      passes.reports =
        laterShift.reports ++
          [laterShift.reportOf 9 ⟨8⟩, laterShift.reportOf 9 ⟨7⟩] ∧
      passes.engine.combinators = round.engine.combinators ∧
      round.host.sections ⟨1⟩ = [iron, Combinator.copper] ∧
      passes.host.sections ⟨1⟩ = [Combinator.copper, iron] ∧
      (passes.host.sections ⟨1⟩).Perm (round.host.sections ⟨1⟩) := by
  obtain ⟨past, reached⟩ := laterShift_reached
  have independent : laterShift.Independent 9 := by decide +kernel
  have few : Few (laterShift.perform (.evaluateAll 9)).log := by
    unfold Few
    decide +kernel
  have listed : laterShift.engine.combinatorIds = [⟨7⟩, ⟨8⟩] := by
    decide +kernel
  have all : [⟨8⟩, ⟨7⟩].Perm laterShift.engine.combinatorIds := by
    decide +kernel
  obtain ⟨_, reports, combinators, _, sections⟩ :=
    independent_passes_commute reached independent few all
  exact ⟨independent, listed, reports,
    combinators, by decide +kernel, by decide +kernel, sections ⟨1⟩⟩

end World

end CircuitSections
