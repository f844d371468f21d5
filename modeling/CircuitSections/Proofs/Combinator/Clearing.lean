import CircuitSections.Proofs.Combinator.Outcome
import CircuitSections.Proofs.Combinator.Policy
import CircuitSections.Proofs.Tracking.Clearing

/-!
# Passes that clear

While a clearing rule holds, a combinator desires nothing.  A pass that
reconciles then visits the wired targets and the others on which the combinator
has something, and so all that a cleanup visits, if in another order.  Hence it
does what a cleanup does.
-/

namespace CircuitSections

namespace Combinator

/-! ### What a clearing combinator desires -/

/-- A combinator desires nothing while a clearing rule holds. -/
theorem policy_of_clearing {combinator : Combinator}
    {channels : Channels} {rule : Rule} (listed : rule ∈ combinator.rules)
    (clears : rule.config.action = .remove)
    (holds : rule.holds channels = true) :
      combinator.policy channels = .empty := by
  unfold policy
  rw [if_pos]
  exact List.any_eq_true.mpr ⟨rule, listed, by simp [clears, holds]⟩

theorem stepped_desired_of_clearing {combinator : Combinator}
    {channels : Channel → SignalStore} {rule : Rule}
    (listed : rule ∈ combinator.rules) (clears : rule.config.action = .remove)
    (holds : rule.holds ⟨channels .red, channels .green⟩ = true) (tick : UInt64)
    (targets : List TargetId) :
      (combinator.stepped tick channels targets).desired = .empty := by
  let channelsRead := (combinator.refreshed channels targets).channels
  have stepped : (rule.step channelsRead tick).2 ∈
      (combinator.stepped tick channels targets).rules := by
    rw [stepped_rules]
    exact List.mem_map.mpr ⟨rule, listed, rfl⟩
  have config : (rule.step channelsRead tick).2.config = rule.config :=
    rule.step_config _ _
  rw [stepped_desired]
  apply policy_of_clearing stepped
  · rw [config]
    exact clears
  · rw [Rule.holds_of_config config]
    exact holds

/-! ### Both ways to clear -/

section Reconcile

variable {ledger : Ledger} {host : MemoryHost} {id : CombinatorId}
  {wired : List TargetId}

/-- Where nothing is desired, the wired targets and the others are cleared in
one go. -/
theorem reconcile_clear (wired : List TargetId) (tick : UInt64)
    (ledger : Ledger) (host : MemoryHost) :
    reconcile id wired .empty tick ledger host =
      Reconciliation.targets id .empty tick
        (wired ++ (unwired ledger id wired).toList) ledger
        host := by
  rw [reconcile_eq, Reconciliation.targets_append]

theorem reported_covers (once : wired.Nodup) :
    ledger.CoveredBy id (wired ++ (unwired ledger id wired).toList) where
  once := reported_targets once
  owned := by
    intro target key owns
    by_cases listed : target ∈ wired
    · exact List.mem_append_left _ listed
    · exact List.mem_append_right _ (mem_unwired.mpr ⟨listed, key, owns⟩)

theorem mem_ownedTargets {target : TargetId} :
    target ∈ (ledger.ownedTargets id).toList ↔
      ∃ key, ledger.Owns id target key := by
  rw [← Ascending.contains_iff_mem, Ledger.contains_ownedTargets_iff]

theorem ownedTargets_covers (ledger : Ledger) (id : CombinatorId) :
    ledger.CoveredBy id (ledger.ownedTargets id).toList where
  once := by simpa [Ascending.keys] using (ledger.ownedTargets id).keys_nodup
  owned owns := mem_ownedTargets.mpr ⟨_, owns⟩

/-- Up to order, the targets of a reconciliation are those of a cleanup and the
wired ones on which the combinator has nothing. -/
theorem reported_perm (once : wired.Nodup) :
    (wired ++ (unwired ledger id wired).toList).Perm
      ((ledger.ownedTargets id).toList ++
        wired.filter fun target => ledger.ownedSpecs id target = .empty) := by
  have apart : ((ledger.ownedTargets id).toList ++
      wired.filter fun target => ledger.ownedSpecs id target =
        .empty).Nodup := by
    rw [List.nodup_append]
    refine ⟨(ownedTargets_covers ledger id).once, once.filter _, ?_⟩
    rintro target owned _ listed rfl
    obtain ⟨key, owns⟩ := mem_ownedTargets.mp owned
    have nothing := (List.mem_filter.mp listed).2
    rw [decide_eq_true_eq, Ledger.ownedSpecs_eq_empty_iff] at nothing
    exact nothing key owns
  refine (List.perm_ext_iff_of_nodup (reported_targets once) apart).mpr
    fun target => ?_
  rw [List.mem_append, List.mem_append, mem_unwired, mem_ownedTargets,
    List.mem_filter, decide_eq_true_eq, Ledger.ownedSpecs_eq_empty_iff]
  by_cases owned : ∃ key, ledger.Owns id target key
  · simp only [owned, and_true, true_or, iff_true]
    exact Decidable.em _
  · have nothing : ∀ key, ¬ ledger.Owns id target key := fun key owns =>
      owned ⟨key, owns⟩
    simp [nothing]

theorem remove_eq_of_cleanup {engine : Engine} {combinator : Combinator}
    (found : engine.combinator? id = some combinator) {tick : UInt64}
    {cleared : ReconcileReport} {later : Ledger} {asked : MemoryHost}
    (ran : Reconciliation.cleanup id tick engine.ledger host =
      (cleared, later, asked)) :
    engine.remove id tick host =
      (.ok cleared, { engine with
        ledger := later, combinators := engine.combinators.erase id },
        asked) := by
  unfold Engine.remove
  rw [found]
  dsimp only [tearDown]
  rw [Engine.combinator?_id found, ran]

end Reconcile

theorem reconcile_of_clearing {combinator : Combinator} {ledger : Ledger}
    {host : MemoryHost} {tick : UInt64} {report : PassReport}
    {after : Combinator} {later : Ledger} {asked : MemoryHost}
    (passed : combinator.pass tick ledger host = (report, after, later, asked))
    {outcome : ReconcileReport}
    (reconciled : report.reconciliation = some outcome) {rule : Rule}
    (listed : rule ∈ combinator.rules) (clears : rule.config.action = .remove)
    (holds : rule.holds (host.channelsOf combinator.id) = true) :
    reconcile combinator.id (combinator.wiredOr (host.wiring combinator.id))
      .empty tick ledger
      host = (outcome, later, asked) := by
  have wanted : report.desired = some .empty := by
    by_cases quiet :
        combinator.Quiet tick (host.channels combinator.id)
          (host.wiring combinator.id)
    · rw [pass_eq_of_quiet host.answers quiet] at passed
      cases passed
      cases reconciled
    · rw [pass_eq_of_not_quiet host.answers quiet] at passed
      cases passed
      exact congrArg some
        (stepped_desired_of_clearing listed clears holds tick _)
  exact pass_reconciled passed wanted reconciled

/-- A pass that reconciles while a clearing rule holds does what a cleanup does,
whatever the targets make of it: it leaves the same ledger and the same host,
and reports the same up to order, but for wired targets on which the combinator
has nothing, where it reports nothing either.  No section is added; its own
sections go from the targets that accept edits, and no others.  What it keeps is
on targets that cannot hold sections or that reject the removal, and what others
have stays.  To remove the combinator does the same. -/
theorem clearing_pass_is_cleanup {combinator : Combinator} {ledger : Ledger}
    {host : MemoryHost} {tick : UInt64}
    (once : (combinator.wiredOr (host.wiring combinator.id)).Nodup)
    {report : PassReport} {after : Combinator} {later : Ledger}
    {asked : MemoryHost}
    (passed : combinator.pass tick ledger host = (report, after, later, asked))
    {outcome : ReconcileReport}
    (reconciled : report.reconciliation = some outcome)
    (clearing : ∃ rule ∈ combinator.rules, rule.config.action = .remove ∧
      rule.holds (host.channelsOf combinator.id) = true)
    (cleanupTick : UInt64) :
    let id := combinator.id
    ∃ cleared : ReconcileReport,
      Reconciliation.cleanup id cleanupTick ledger host =
        (cleared, later, asked) ∧
      (∃ idle : List TargetReport,
        outcome.targets.Perm (cleared.targets ++ idle) ∧
        ∀ report ∈ idle, report.target ∈ combinator.wiredOr (host.wiring id) ∧
          ledger.ownedSpecs id report.target = .empty ∧ report.removed = [] ∧
          report.injected = [] ∧ report.failures = [] ∧ report.orphaned = []) ∧
      ((∀ told ∈ outcome.targets ++ cleared.targets, told.injected = [] ∧
        told.orphaned = []) ∧
        asked.nextHandle = host.nextHandle ∧
        ∀ target, (asked.sectionList target).Sublist (host.sectionList target) ∧
          ∀ placed, placed ∈ asked.sectionList target ↔
            placed ∈ host.sectionList target ∧
            ¬ (host.Accepts target ∧ ∃ entry ∈ ledger.entries,
              entry.owner = id ∧
              entry.target = target ∧ entry.handle = placed.1)) ∧
      (∀ told ∈ [outcome, cleared], ∀ entry, entry.owner = id →
        (entry ∈ later.entries ↔ entry ∈ ledger.entries ∧
          host.targetExists entry.target = true ∧
          (host.supportsSections entry.target = false ∨
            told.RejectsRemoval entry.place))) ∧
      (∀ entry, entry.owner ≠ id →
        (entry ∈ later.entries ↔ entry ∈ ledger.entries)) ∧
      ∀ engine : Engine, engine.ledger = ledger → engine.combinator? id =
        some combinator →
        engine.remove id cleanupTick host =
          (.ok cleared,
            { engine with
              ledger := later, combinators := engine.combinators.erase id },
            asked) := by
  intro id
  obtain ⟨rule, listed, clears, holds⟩ := clearing
  let wired := combinator.wiredOr (host.wiring id)
  have ran : Reconciliation.targets id .empty tick
      (wired ++ (unwired ledger id wired).toList)
      ledger host = (outcome, later, asked) :=
    (reconcile_clear wired tick ledger host).symm.trans
      (reconcile_of_clearing passed reconciled listed clears holds)
  have byPass := Reconciliation.Clears.of_targets (reported_covers once) ran
  rcases cleaned : Reconciliation.cleanup id cleanupTick ledger host with
    ⟨cleared, laterByCleanup, askedByCleanup⟩
  have byCleanup :=
    Reconciliation.Clears.of_targets (ownedTargets_covers ledger id) cleaned
  -- What either leaves is known without it, so they leave the same.
  obtain rfl : laterByCleanup = later :=
    byCleanup.ledger_eq.trans byPass.ledger_eq.symm
  obtain rfl : askedByCleanup = asked :=
    byCleanup.host_eq.trans byPass.host_eq.symm
  have nothing : ∀ target ∈ wired.filter fun target =>
      ledger.ownedSpecs id target = .empty,
      ledger.ownedSpecs id target = .empty :=
    fun target among => of_decide_eq_true (List.mem_filter.mp among).2
  obtain ⟨idle, same, silent⟩ :=
    byPass.reports_perm byCleanup (reported_perm once) nothing
  refine ⟨cleared, rfl, ⟨idle, same, ?_⟩,
    ⟨?_, byPass.nextHandle, fun target =>
      ⟨byPass.sublist target, fun _ => byPass.sections⟩⟩, ?_,
    fun _ => byPass.other_entries, ?_⟩
  · intro report told
    obtain ⟨among, quiet⟩ := silent report told
    exact ⟨(List.mem_filter.mp among).1, nothing _ among, quiet⟩
  · intro told among
    rcases List.mem_append.mp among with listed | listed
    · exact byPass.adds_nothing listed
    · exact byCleanup.adds_nothing listed
  · intro told among entry own
    rcases List.mem_pair.mp among with rfl | rfl
    · exact byPass.own_entries own
    · exact byCleanup.own_entries own
  · rintro engine rfl found
    exact remove_eq_of_cleanup found cleaned

/-- Of what the combinator has on the five targets, the sections on the two that
refuse edits stay, by both reports, and the copper on the target that cannot
hold sections. -/
theorem clearing_pass_is_cleanup_troubled :
    let combinator :=
      { empty ⟨7⟩ with
        rules := [.fresh ⟨0⟩ { World.ironRule with action := .remove }] }
    let (report, _, later, asked) :=
      combinator.pass 9 troubledLedger troubledHost
    ∃ outcome cleared, report.reconciliation = some outcome ∧
      Reconciliation.cleanup ⟨7⟩ 5 troubledLedger troubledHost =
        (cleared, later, asked) ∧
      later.entries.map TrackedSection.handle = [⟨40⟩, ⟨41⟩, ⟨42⟩, ⟨45⟩] ∧
      outcome.RejectsRemoval ⟨⟨2⟩, copper.key⟩ ∧
        cleared.RejectsRemoval ⟨⟨6⟩, copper.key⟩ := by
  intro combinator
  have reconciles :
      (combinator.pass 9 troubledLedger troubledHost).1.reconciliation.isSome =
        true := by decide +kernel
  have kept : (combinator.pass 9 troubledLedger troubledHost).2.2.1.entries =
      [⟨⟨1⟩, World.iron, ⟨8⟩, ⟨40⟩, 1⟩, ⟨⟨2⟩, copper, ⟨7⟩, ⟨41⟩, 1⟩,
        ⟨⟨3⟩, copper, ⟨7⟩, ⟨42⟩, 1⟩, ⟨⟨6⟩, copper, ⟨7⟩, ⟨45⟩, 1⟩] := by
          decide +kernel
  have once :
      (combinator.wiredOr (troubledHost.wiring combinator.id)).Nodup := by
        decide +kernel
  have clearing : ∃ rule ∈ combinator.rules, rule.config.action = .remove ∧
      rule.holds (troubledHost.channelsOf combinator.id) = true :=
    ⟨_, List.mem_singleton.mpr rfl, rfl, by decide +kernel⟩
  rcases ran : combinator.pass 9 troubledLedger troubledHost with
    ⟨report, after, later, asked⟩
  rw [ran] at reconciles kept
  obtain ⟨outcome, reconciled⟩ := Option.isSome_iff_exists.mp reconciles
  obtain ⟨cleared, cleaned, _, _, survive, _, _⟩ :=
    clearing_pass_is_cleanup once ran reconciled clearing 5
  have rejected (told : ReconcileReport) (among : told ∈ [outcome, cleared])
      (entry : TrackedSection) (own : entry.owner = ⟨7⟩)
        (stays : entry ∈ later.entries)
      (able : troubledHost.supportsSections entry.target = true) :
      told.RejectsRemoval entry.place := by
    obtain ⟨_, _, bare | rejects⟩ := (survive told among entry own).mp stays
    · rw [able] at bare
      cases bare
    · exact rejects
  refine ⟨outcome, cleared, reconciled, cleaned, by rw [kept]; rfl, ?_, ?_⟩
  · exact rejected outcome (by simp) ⟨⟨2⟩, copper, ⟨7⟩, ⟨41⟩, 1⟩ rfl
      (by simp [kept])
      (by decide +kernel)
  · exact rejected cleared (by simp) ⟨⟨6⟩, copper, ⟨7⟩, ⟨45⟩, 1⟩ rfl
      (by simp [kept])
      (by decide +kernel)

end Combinator

end CircuitSections
