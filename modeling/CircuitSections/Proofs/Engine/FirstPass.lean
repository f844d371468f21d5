import CircuitSections.Proofs.Combinator.Outcome
import CircuitSections.Proofs.Combinator.Policy
import CircuitSections.Proofs.Engine.Refusals

/-!
# The first pass after a load

A combinator that was loaded reconciles for the first time when a rule fires or
its wiring differs from the empty set that it starts with.  Then it clears what
it has outside the wiring.  A loaded combinator without any wire whose rules
hold as they did is not told apart from one that has reconciled already, so what
it has stays where it is.
-/

namespace CircuitSections

theorem TargetSet.ofList_eq_empty_iff {targets : List TargetId} :
    TargetSet.ofList targets = .empty ↔ targets = [] := by
  constructor
  · intro none
    apply List.eq_nil_iff_forall_not_mem.mpr
    intro target member
    have contained := TargetSet.contains_ofList.mpr member
    rw [none] at contained
    cases contained
  · rintro rfl
    rfl

namespace Combinator

/-- The combinator that comes back from the saved forms of its rules. -/
def loaded (id : CombinatorId) (snapshots : List RuleSnapshot) : Combinator :=
  { empty id with rules := snapshots.map RuleSnapshot.rule }

/-- The first pass does nothing just if nothing is wired and no rule fires. -/
theorem loaded_quiet_iff {id : CombinatorId} {snapshots : List RuleSnapshot}
    {tick : UInt64} {host : MemoryHost} :
    (loaded id snapshots).Quiet tick (host.channels id) (host.wiring id) ↔
      ¬ (host.wiring id ≠ [] ∨ ∃ snapshot ∈ snapshots,
        snapshot.previousResult ≠
          snapshot.rule.holds (host.channelsOf id)) := by
  have still : (loaded id snapshots).fired tick (host.channels id)
      (host.wiring id) = [] ↔
        ∀ snapshot ∈ snapshots, snapshot.previousResult =
          snapshot.rule.holds (host.channelsOf id) := by
    rw [fired_eq_nil_iff, loaded, List.forall_mem_map]
    rfl
  have unwired : TargetSet.ofList (host.wiring id) = .empty ∧
      (loaded id snapshots).rulesChanged = false ↔ host.wiring id = [] := by
    rw [TargetSet.ofList_eq_empty_iff]
    exact and_iff_left rfl
  rw [Quiet, still]
  refine (and_congr_right fun _ => unwired).trans ?_
  rw [not_or, not_not, and_comm]
  simp

theorem reconcile_clears {id : CombinatorId} {wired : List TargetId}
    {desired : SpecSet} {tick : UInt64} {ledger : Ledger} {host : MemoryHost}
    (accepting : ∀ entry ∈ ledger.entries, host.Accepts entry.target)
    {entry : TrackedSection}
    (member : entry ∈ (reconcile id wired desired tick ledger host).2.1.entries)
    (owned : entry.owner = id) : entry.target ∈ wired := by
  apply Decidable.byContradiction
  intro off
  have owns :=
    (Ledger.owns_iff_of_get? (Ledger.mem_entries_iff.mp member)).mpr owned
  refine off ((reconcile_owns ?_).mp owns).1
  rintro (listed | before)
  · exact absurd listed off
  · obtain ⟨old, oldMember, _, place⟩ := before
    have onTarget : old.target = entry.target := congrArg SlotKey.target place
    exact onTarget ▸ accepting old oldMember

/-- The first pass of a combinator that was loaded clears what it has outside
the wiring, unless nothing is wired and no rule fires. -/
theorem loaded_pass_clears_iff (id : CombinatorId)
    (snapshots : List RuleSnapshot) (tick : UInt64) {ledger : Ledger}
    {host : MemoryHost}
    (accepting : ∀ entry ∈ ledger.entries, host.Accepts entry.target) :
    (∀ entry ∈ ((loaded id snapshots).pass tick ledger host).2.2.1.entries,
        entry.owner = id → entry.target ∈ host.wiring id) ↔
        host.wiring id ≠ [] ∨
        (∃ snapshot ∈ snapshots,
          snapshot.previousResult ≠ snapshot.rule.holds (host.channelsOf id)) ∨
        ∀ entry ∈ ledger.entries, entry.owner ≠ id := by
  by_cases quiet : (loaded id snapshots).Quiet tick (host.channels id)
    (host.wiring id)
  · obtain ⟨unwired, noneFired⟩ := not_or.mp (loaded_quiet_iff.mp quiet)
    rw [pass_eq_of_quiet host.answers quiet, not_not.mp unwired]
    simp [noneFired]
  · have loud := not_not.mp (mt loaded_quiet_iff.mpr quiet)
    refine iff_of_true ?_ (or_assoc.mp (.inl loud))
    intro entry member owned
    rw [pass_eq_of_not_quiet host.answers quiet] at member
    dsimp only at member
    exact reconcile_clears accepting member owned

end Combinator

namespace Engine

theorem addRestored_ok {engine restored : Engine} {id : CombinatorId}
    {snapshots : List RuleSnapshot}
    (added : engine.addRestored id snapshots = (.ok (), restored)) :
    restored = engine.putCombinator (.loaded id snapshots) := by
  unfold addRestored at added
  split at added
  · cases added
  · split at added
    · cases added
    next combinator made =>
        obtain ⟨_, rfl⟩ := withRestoredRules_eq_ok_iff.mp made
        cases added
        rfl

/-- After the first pass of a combinator that was loaded with its sections, on
targets that accept edits, it has nothing outside its wiring, with one
exception: nothing is wired to it, its rules hold just as they did when they
were saved, and it has some section. -/
theorem first_pass_clears_iff {engine restored : Engine} {id : CombinatorId}
    {entries : List TrackedSection} {snapshots : List RuleSnapshot}
    {host : MemoryHost}
    (added : (engine.restoreLedger entries).addRestored id snapshots =
      (.ok (), restored))
    (accepting : ∀ entry ∈ entries, host.Accepts entry.target) (tick : UInt64) :
    let (answer, after, _) := restored.evaluate id tick host
    (∃ report, answer = .ok report) ∧
      ((∀ entry ∈ after.ledger.entries, entry.owner = id →
        entry.target ∈ host.wiring id) ↔
          host.wiring id ≠ [] ∨
          (∃ snapshot ∈ snapshots,
            snapshot.previousResult ≠
              snapshot.rule.holds (host.channelsOf id)) ∨
          ∀ entry ∈ restored.ledger.entries, entry.owner ≠ id) := by
  obtain rfl := addRestored_ok added
  have held :
      ((engine.restoreLedger entries).putCombinator
        (.loaded id snapshots)).combinator? id =
        some (.loaded id snapshots) := by
    rw [combinator?_putCombinator]
    exact if_pos rfl
  have tracked : ∀ entry ∈ (Ledger.ofEntries entries).entries,
      host.Accepts entry.target :=
    fun entry member => accepting entry (Ledger.mem_of_mem_ofEntries member)
  have clears := Combinator.loaded_pass_clears_iff id snapshots tick tracked
  rcases ran :
    (Combinator.loaded id snapshots).pass tick (.ofEntries entries) host with
    ⟨report, next, ledger, asked⟩
  have passed : (Combinator.loaded id snapshots).pass tick
      ((engine.restoreLedger entries).putCombinator
        (.loaded id snapshots)).ledger host =
          (report, next, ledger, asked) := ran
  rw [ran] at clears
  rw [evaluate_of_some held, passed]
  exact ⟨⟨report, rfl⟩, clears⟩

/-- A target with the section of a combinator to which nothing is wired. -/
def unwiredHost : MemoryHost :=
  ((MemoryHost.empty.addTarget ⟨1⟩).addManualSection ⟨1⟩ World.iron).2

def unwiredEntry : TrackedSection := ⟨⟨1⟩, World.iron, ⟨7⟩, ⟨0⟩, 0⟩

/-- With another target wired, the section is cleared. -/
theorem first_pass_clears_iff_wired :
    let host := unwiredHost.connect ⟨7⟩ ⟨2⟩
    let (answer, restored) :=
      ((Engine.empty ⟨0⟩).restoreLedger [unwiredEntry]).addRestored ⟨7⟩ []
    let (_, after, _) := restored.evaluate ⟨7⟩ 1 host
    answer = .ok () ∧ host.Accepts ⟨1⟩ ∧
      ∀ entry ∈ after.ledger.entries, entry.owner = ⟨7⟩ →
        entry.target ∈ host.wiring ⟨7⟩ := by
  intro host
  have accepting : ∀ entry ∈ [unwiredEntry], host.Accepts entry.target := by
    decide +kernel
  have wired : host.wiring ⟨7⟩ ≠ [] := by decide +kernel
  have added :
      ((Engine.empty ⟨0⟩).restoreLedger [unwiredEntry]).addRestored ⟨7⟩ [] =
        (.ok (), _) := rfl
  obtain ⟨_, clears⟩ := first_pass_clears_iff added accepting 1
  exact ⟨rfl, accepting _ List.mem_cons_self, clears.mpr (.inl wired)⟩

/-- With nothing wired, the section stays, and so does its entry. -/
theorem first_pass_keeps_unwired :
    let (answer, restored) :=
      ((Engine.empty ⟨0⟩).restoreLedger [unwiredEntry]).addRestored ⟨7⟩ []
    let (_, after, asked) := restored.evaluate ⟨7⟩ 1 unwiredHost
    answer = .ok () ∧ unwiredHost.Accepts ⟨1⟩ ∧ unwiredHost.wiring ⟨7⟩ = [] ∧
      after.ledger.entries = [unwiredEntry] ∧ asked.sections ⟨1⟩ =
        [World.iron] := by
  decide +kernel

end Engine

end CircuitSections
