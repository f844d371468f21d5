import CircuitSections.Proofs.Combinator.Policy
import CircuitSections.Proofs.Tracking.Reconciliation

/-!
# Settled combinators

A combinator is settled when its next pass would find nothing to do.  Such a
pass asks the host and edits nothing, and this is so even for a combinator that
has the same rules but forgot everything else, though its pass may reconcile.
Both are left the same.
-/

namespace CircuitSections

section Idle

variable {σ : Type} [ChannelReader σ] [WiringReader σ] [SectionEditor σ]
  {Inside : σ → Prop}
  {host : MemoryHost} {state : σ} {owner : CombinatorId} {desired : SpecSet}
  {ledger : Ledger}

namespace Reconciliation

/-- Nothing is to be done on a target: its owner has what it desires if the
target supports sections, and nothing if it is gone. -/
def Done (host : MemoryHost) (ledger : Ledger) (owner : CombinatorId)
    (desired : SpecSet) (target : TargetId) : Prop :=
  (host.supportsSections target = true →
    ∀ key, ledger.Owns owner target key ↔ desired.contains key = true) ∧
  (host.targetExists target = false → ∀ key, ¬ ledger.Owns owner target key)

theorem target_idle (answers : Answers Inside host) (inside : Inside state)
    {target : TargetId} (done : Done host ledger owner desired target)
    (tick : UInt64) :
    ∃ report next, Inside next ∧
      Reconciliation.target owner target desired tick ledger state =
        (report, ledger, next) := by
  obtain ⟨asked, insideAsked, alive⟩ := answers.targetExists target inside
  obtain ⟨again, insideAgain, supported⟩ :=
    answers.supportsSections target insideAsked
  simp only [Reconciliation.target, alive, supported]
  split
  · split
    next supports =>
      have same (key : SpecKey) :
          (ledger.ownedSpecs owner target).contains key = true ↔
            desired.contains key = true :=
        Ledger.contains_ownedSpecs.trans (done.1 supports key)
      have plan : EditPlan.between (ledger.ownedSpecs owner target) desired =
          ⟨[], []⟩ := by
        rw [EditPlan.between, Ascending.difference_eq_nil fun key =>
          (same key).mp, Ascending.difference_eq_nil fun key => (same key).mpr]
      rw [plan]
      exact ⟨_, again, insideAgain, rfl⟩
    · exact ⟨_, again, insideAgain, rfl⟩
  next gone =>
    have kept : (ledger.forgetOwnedOn owner target).2 = ledger := by
      apply Ledger.drain_of_none
      intro entry member
      have missing := done.2 (by simpa using gone) entry.spec.key
      by_cases mine : entry.owner = owner ∧ entry.target = target
      · obtain ⟨rfl, rfl⟩ := mine
        exact absurd ⟨entry, member, rfl, rfl⟩ missing
      · simpa using mine
    rw [kept]
    exact ⟨_, asked, insideAsked, rfl⟩

theorem targets_idle (answers : Answers Inside host) (inside : Inside state)
    {list : List TargetId}
    (done : ∀ target ∈ list, Done host ledger owner desired target)
    (tick : UInt64) :
    ∃ report next, Inside next ∧
      Reconciliation.targets owner desired tick list ledger state =
        (report, ledger, next) := by
  induction list generalizing state with
  | nil => exact ⟨_, state, inside, rfl⟩
  | cons first rest induction =>
      obtain ⟨report, between, insideBetween, head⟩ :=
        target_idle answers inside (done first List.mem_cons_self) tick
      obtain ⟨reports, next, insideNext, tail⟩ := induction insideBetween
        fun target member => done target (List.mem_cons_of_mem first member)
      simp only [Reconciliation.targets, head, tail]
      exact ⟨_, next, insideNext, rfl⟩

end Reconciliation

theorem Combinator.reconcile_idle (answers : Answers Inside host)
    (inside : Inside state) {wired : List TargetId}
    (done : ∀ target ∈ wired,
      Reconciliation.Done host ledger owner desired target)
    (elsewhere : ∀ target, target ∉ wired →
      ∀ key, ¬ ledger.Owns owner target key)
    (tick : UInt64) :
    ∃ report next, Inside next ∧
      reconcile owner wired desired tick ledger state =
        (report, ledger, next) := by
  obtain ⟨onWired, between, insideBetween, first⟩ :=
    Reconciliation.targets_idle answers inside done tick
  have dropped :
      ((ledger.ownedTargets owner).difference (TargetSet.ofList wired)).toList =
        [] := by
    apply List.eq_nil_iff_forall_not_mem.mpr
    intro target member
    obtain ⟨listed, absent⟩ := Ascending.mem_difference.mp member
    obtain ⟨entry, tracked, owned, onTarget⟩ :=
      Ledger.contains_ownedTargets.mp (Ascending.contains_of_mem listed)
    refine elsewhere target ?_ entry.spec.key ⟨entry, tracked, owned, ?_⟩
    · intro isWired
      rw [TargetSet.contains_ofList.mpr isWired] at absent
      cases absent
    · rw [TrackedSection.place, onTarget]
  simp only [reconcile, first, dropped, Reconciliation.targets]
  exact ⟨_, between, insideBetween, rfl⟩

end Idle

namespace Combinator

/-- A combinator that would find nothing to do: its rules remember what holds
now, it knows the wiring, and it has what it desires where that can be, and
nothing elsewhere. -/
structure Settled (combinator : Combinator) (ledger : Ledger)
    (host : MemoryHost) : Prop where
  results : ∀ rule ∈ combinator.rules,
    rule.previousResult = rule.holds (host.channelsOf combinator.id)
  wired : combinator.wired = some (host.wiring combinator.id)
  supplied : ∀ target ∈ host.wiring combinator.id,
    host.targetExists target = true →
    host.supportsSections target = true →
    (ledger.ownedSpecs combinator.id target).keys = combinator.desired.keys
  vanished : ∀ target ∈ host.wiring combinator.id,
    host.targetExists target = false →
    ledger.ownedSpecs combinator.id target = .empty
  elsewhere : ∀ target, target ∉ host.wiring combinator.id →
    ledger.ownedSpecs combinator.id target = .empty

/-- A combinator that has the same rules, and forgot everything else. -/
def bare (combinator : Combinator) : Combinator :=
  { empty combinator.id with rules := combinator.rules }

@[simp]
theorem bare_id (combinator : Combinator) : combinator.bare.id =
    combinator.id := rfl

/-- The combinator when it has read its channels again, as far as its conditions
see them. -/
def reread (host : MemoryHost) (combinator : Combinator) : Combinator :=
  { combinator with
    channels :=
      ⟨if combinator.reads .red then host.channels combinator.id .red
        else .empty, if combinator.reads .green then host.channels combinator.id
          .green else .empty⟩ }

theorem settled_iff {combinator : Combinator} {ledger : Ledger}
    {host : MemoryHost} :
    combinator.Settled ledger host ↔
      (∀ rule ∈ combinator.rules,
        rule.previousResult = rule.holds (host.channelsOf combinator.id)) ∧
      combinator.wired = some (host.wiring combinator.id) ∧
      (∀ target ∈ host.wiring combinator.id,
        (host.targetExists target = true → host.supportsSections target = true →
          (ledger.ownedSpecs combinator.id target).keys =
            combinator.desired.keys) ∧
        (host.targetExists target = false →
          ledger.ownedSpecs combinator.id target = .empty)) ∧
      ∀ entry ∈ ledger.entries, entry.owner = combinator.id →
        (host.wiring combinator.id).contains entry.target = true := by
  constructor
  · intro settled
    refine ⟨settled.results, settled.wired, ?_, ?_⟩
    · exact fun target member =>
        ⟨settled.supplied target member, settled.vanished target member⟩
    · intro entry member owned
      apply Decidable.byContradiction
      intro unlisted
      have unwired : entry.target ∉ host.wiring combinator.id := by
        simpa using unlisted
      have missing :=
        Ledger.ownedSpecs_eq_empty_iff.mp
          (settled.elsewhere entry.target unwired)
      exact missing entry.spec.key ⟨entry, member, owned, rfl⟩
  · intro conditions
    obtain ⟨results, wired, onWired, within⟩ := conditions
    constructor
    · exact results
    · exact wired
    · exact fun target member => (onWired target member).1
    · exact fun target member => (onWired target member).2
    · intro target unwired
      apply Ledger.ownedSpecs_eq_empty_iff.mpr
      intro key owns
      obtain ⟨entry, member, owned, place⟩ := owns
      have listed := within entry member owned
      rw [(SlotKey.mk.inj place).1] at listed
      exact unwired (List.contains_iff_mem.mp listed)

instance (combinator : Combinator) (ledger : Ledger) (host : MemoryHost) :
    Decidable (combinator.Settled ledger host) :=
  decidable_of_iff _ settled_iff.symm

namespace Settled

variable {combinator : Combinator} {ledger : Ledger} {host : MemoryHost}

/-- Settled combinators are settled by what is tracked, not by how it is
spelled. -/
theorem of_entries (settled : combinator.Settled ledger host) {loaded : Ledger}
    (same : loaded.entries = ledger.entries) :
    combinator.Settled loaded host := by
  have owns (target : TargetId) (key : SpecKey) :
      loaded.Owns combinator.id target key ↔
        ledger.Owns combinator.id target key := by
    rw [Ledger.Owns, Ledger.Owns, same]
  have none (target : TargetId)
      (before : ledger.ownedSpecs combinator.id target = .empty) :
      loaded.ownedSpecs combinator.id target = .empty := by
    rw [Ledger.ownedSpecs_eq_empty_iff] at before ⊢
    exact fun key => mt (owns target key).mp (before key)
  constructor
  · exact settled.results
  · exact settled.wired
  · intro target wired alive supports
    rw [← settled.supplied target wired alive supports, Ascending.keys_eq_iff]
    intro key
    rw [Ledger.contains_ownedSpecs, Ledger.contains_ownedSpecs, owns]
  · intro target wired gone
    exact none target (settled.vanished target wired gone)
  · intro target unwired
    exact none target (settled.elsewhere target unwired)

theorem fired (settled : combinator.Settled ledger host) (tick : UInt64) :
    combinator.fired tick (host.channels combinator.id)
      (host.wiring combinator.id) = [] :=
  (fired_eq_nil_iff combinator tick _ _).mpr settled.results

theorem done (settled : combinator.Settled ledger host) {target : TargetId}
    (wired : target ∈ host.wiring combinator.id) :
    Reconciliation.Done host ledger combinator.id
      combinator.desired target := by
  constructor
  · intro supports key
    have alive : host.targetExists target = true := by
      unfold MemoryHost.supportsSections at supports
      unfold MemoryHost.targetExists
      cases found : host.targets target with
      | none => simp [found] at supports
      | some state => rfl
    rw [← Ledger.contains_ownedSpecs]
    exact Ascending.keys_eq_iff.mp
      (settled.supplied target wired alive supports) key
  · intro gone
    exact Ledger.ownedSpecs_eq_empty_iff.mp (settled.vanished target wired gone)

variable {σ : Type} [ChannelReader σ] [WiringReader σ] [SectionEditor σ]
  {Inside : σ → Prop}
  {state : σ}

theorem pass (settled : combinator.Settled ledger host)
    (reconciled : combinator.reconciled =
      TargetSet.ofList (host.wiring combinator.id))
    (unchanged : combinator.rulesChanged = false)
    (answers : Answers Inside host) (inside : Inside state) (tick : UInt64) :
    ∃ report next, Inside next ∧ report.combinator = combinator.id ∧
      report.edges = [] ∧
      combinator.pass tick ledger state =
        (report, combinator.reread host, ledger, next) := by
  have wiredOr : combinator.wiredOr (host.wiring combinator.id) =
      host.wiring combinator.id := by
    rw [Combinator.wiredOr, settled.wired]
    rfl
  have quiet : combinator.Quiet tick (host.channels combinator.id)
      (host.wiring combinator.id) :=
    ⟨settled.fired tick, by rw [wiredOr, reconciled], unchanged⟩
  obtain ⟨next, insideNext, passed⟩ := pass_of_quiet ledger answers inside quiet
  have after : combinator.stepped tick (host.channels combinator.id)
      (host.wiring combinator.id) = combinator.reread host := by
    rw [stepped_eq_refreshed _ _ _ (settled.fired tick), refreshed,
      settled.wired, reread, settled.wired]
    rfl
  rw [after] at passed
  exact ⟨_, next, insideNext, rfl, rfl, passed⟩

/-- The pass of a combinator that forgot everything but its rules edits nothing
either, and brings back what the settled combinator knows. -/
theorem pass_bare (settled : combinator.Settled ledger host)
    (reconciled : combinator.reconciled =
      TargetSet.ofList (host.wiring combinator.id))
    (unchanged : combinator.rulesChanged = false)
    (answers : Answers Inside host) (inside : Inside state) (tick : UInt64) :
    ∃ report next, Inside next ∧ report.combinator = combinator.id ∧
      report.edges = [] ∧
      combinator.bare.pass tick ledger state =
        (report, combinator.reread host, ledger, next) := by
  have same : combinator.bare.id = combinator.id := rfl
  have still : combinator.bare.fired tick (host.channels combinator.id)
      (host.wiring combinator.id) = [] :=
    (fired_eq_nil_iff combinator.bare tick _ _).mpr settled.results
  have stepped := stepped_eq_refreshed _ _ _ still
  have after : (combinator.bare.pass tick ledger state).2.1 =
      combinator.reread host := by
    rw [pass_combinator answers inside, same, stepped]
    calc
      _ = { combinator.reread host with
            wired := some (host.wiring combinator.id)
            reconciled := TargetSet.ofList (host.wiring combinator.id)
            rulesChanged := false } := rfl
      _ = combinator.reread host := by
          rw [← reconciled, ← unchanged, ← settled.wired]
          rfl
  by_cases quiet : combinator.bare.Quiet tick (host.channels combinator.id)
      (host.wiring combinator.id)
  · obtain ⟨next, insideNext, passed⟩ :=
      pass_of_quiet ledger answers inside quiet
    rw [passed] at after ⊢
    simp only at after
    rw [after]
    exact ⟨_, next, insideNext, rfl, rfl, rfl⟩
  · obtain ⟨between, insideBetween, passed⟩ :=
      pass_of_not_quiet ledger answers inside quiet
    have desired : (combinator.bare.refreshed (host.channels combinator.id)
        (host.wiring combinator.id)).desired = combinator.desired := rfl
    have wired : combinator.bare.wiredOr (host.wiring combinator.id) =
        host.wiring combinator.id := rfl
    obtain ⟨report, next, insideNext, idle⟩ :=
      reconcile_idle answers insideBetween
        (fun target member => settled.done member)
        (fun target unwired =>
          Ledger.ownedSpecs_eq_empty_iff.mp (settled.elsewhere target unwired))
        tick
    simp only [same, still, stepped, desired, wired, idle] at passed
    rw [passed] at after ⊢
    simp only at after
    rw [after]
    exact ⟨_, next, insideNext, rfl, rfl, rfl⟩

end Settled

end Combinator

end CircuitSections
