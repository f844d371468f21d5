import CircuitSections.Combinator.Pass
import CircuitSections.Host.Memory

/-!
# What a pass does

A pass only asks its host until it reconciles.  On hosts that answer questions
as a host in memory does, this leaves the pass three steps: what the combinator
knows is refreshed, its rules are stepped, and it reconciles unless it is quiet.
-/

namespace CircuitSections

/-- Questions are answered as by the host in memory, and asking them does not
lead out of the given states. -/
structure Answers {σ : Type} [ChannelReader σ] [WiringReader σ]
    [SectionEditor σ] (Inside : σ → Prop) (host : MemoryHost) : Prop where
  readChannel : ∀ id channel {state}, Inside state →
    ∃ next, Inside next ∧
      ChannelReader.readChannel id channel state =
        (host.channels id channel, next)
  wiredTargets : ∀ id {state}, Inside state →
    ∃ next, Inside next ∧ WiringReader.wiredTargets id state =
      (host.wiring id, next)
  targetExists : ∀ target {state}, Inside state →
    ∃ next, Inside next ∧
      SectionEditor.targetExists target state = (host.targetExists target, next)
  supportsSections : ∀ target {state}, Inside state →
    ∃ next, Inside next ∧
      SectionEditor.supportsSections target state =
        (host.supportsSections target, next)

theorem MemoryHost.answers (host : MemoryHost) : Answers (· = host) host where
  readChannel _ _ _ inside := ⟨host, rfl, by subst inside; rfl⟩
  wiredTargets _ _ inside := ⟨host, rfl, by subst inside; rfl⟩
  targetExists _ _ inside := ⟨host, rfl, by subst inside; rfl⟩
  supportsSections _ _ inside := ⟨host, rfl, by subst inside; rfl⟩

namespace Combinator

/-! ### On any host -/

section AnyHost

variable {σ : Type}

theorem readWiring_eq [WiringReader σ] (combinator : Combinator) (host : σ) :
    ∃ targets next, combinator.readWiring host =
      (targets, { combinator with wired := some targets }, next) := by
  unfold readWiring
  cases known : combinator.wired with
  | some targets =>
      have same : { combinator with wired := some targets } = combinator := by
        rw [← known]
      exact ⟨targets, host, by rw [same]⟩
  | none => exact ⟨_, _, rfl⟩

/-- On any host a pass leaves its combinator with its rules stepped, the wiring
known and reconciled, and no rules to take up, whether it reconciles or not. -/
theorem pass_leaves [ChannelReader σ] [WiringReader σ] [SectionEditor σ]
    (combinator : Combinator) (tick : UInt64) (ledger : Ledger) (host : σ) :
    ∃ targets, (combinator.pass tick ledger host).2.1 =
      { ((combinator.readChannels host).1.stepRules tick).2 with
        wired := some targets
        reconciled := TargetSet.ofList targets
        rulesChanged := false } := by
  let read := combinator.readChannels host
  obtain ⟨targets, next, wiring⟩ :=
    (read.1.stepRules tick).2.readWiring_eq read.2
  refine ⟨targets, ?_⟩
  simp only [pass]
  rw [wiring]
  dsimp only
  split
  next quiet =>
    obtain ⟨_, same, unchanged⟩ := quiet
    rw [same, ← unchanged]
  · rfl

end AnyHost

/-- The combinator when it has read what the host tells: the channels that some
condition sees, and the wiring if it was not known. -/
def refreshed (combinator : Combinator) (channels : Channel → SignalStore)
    (targets : List TargetId) : Combinator :=
  { combinator with
    channels :=
      ⟨if combinator.reads .red then channels .red else .empty,
        if combinator.reads .green then channels .green else .empty⟩
    wired := some (combinator.wired.getD targets) }

/-- The combinator in the middle of a pass, its rules stepped on what the host
tells. -/
def stepped (combinator : Combinator) (tick : UInt64)
    (channels : Channel → SignalStore) (targets : List TargetId) : Combinator :=
  ((combinator.refreshed channels targets).stepRules tick).2

/-- The edges that the rules fire on what the host tells. -/
def fired (combinator : Combinator) (tick : UInt64)
    (channels : Channel → SignalStore) (targets : List TargetId) :
    List RuleEdge :=
  ((combinator.refreshed channels targets).stepRules tick).1

/-- The wired targets of a pass. -/
def wiredOr (combinator : Combinator) (targets : List TargetId) :
    List TargetId :=
  combinator.wired.getD targets

/-- A pass that does not reconcile: no rule fires, the wiring is that of the
latest reconciliation, and the rules were not set since. -/
def Quiet (combinator : Combinator) (tick : UInt64)
    (channels : Channel → SignalStore) (targets : List TargetId) : Prop :=
  combinator.fired tick channels targets = [] ∧
    TargetSet.ofList (combinator.wiredOr targets) = combinator.reconciled ∧
    combinator.rulesChanged = false

section Fields

variable (combinator : Combinator) (tick : UInt64)
  (channels : Channel → SignalStore)
  (targets : List TargetId)

@[simp]
theorem stepped_id : (combinator.stepped tick channels targets).id =
    combinator.id := rfl

@[simp]
theorem stepped_wired : (combinator.stepped tick channels targets).wired =
    some (combinator.wiredOr targets) := rfl

@[simp]
theorem stepped_reconciled :
    (combinator.stepped tick channels targets).reconciled =
      combinator.reconciled := rfl

@[simp]
theorem stepped_rulesChanged :
    (combinator.stepped tick channels targets).rulesChanged =
      combinator.rulesChanged := rfl

end Fields

section Pass

variable {σ : Type} [ChannelReader σ] [WiringReader σ] [SectionEditor σ]
  {Inside : σ → Prop}
  {host : MemoryHost} {state : σ} {combinator : Combinator} {tick : UInt64}
  {ledger : Ledger}

private theorem readChannel_eq (combinator : Combinator)
    (answers : Answers Inside host) (inside : Inside state)
    (channel : Channel) :
    ∃ next, Inside next ∧ combinator.readChannel channel state =
      (if combinator.reads channel then host.channels combinator.id channel
        else .empty, next) := by
  unfold readChannel
  split
  · exact answers.readChannel combinator.id channel inside
  · exact ⟨state, inside, rfl⟩

private theorem pass_reads (combinator : Combinator) (tick : UInt64)
    (answers : Answers Inside host) (inside : Inside state) :
    ∃ between next, Inside next ∧ (combinator.readChannels state).2 = between ∧
      ((combinator.readChannels state).1.stepRules tick).2.readWiring between =
        (combinator.wiredOr (host.wiring combinator.id),
          combinator.stepped tick (host.channels combinator.id)
            (host.wiring combinator.id),
          next) ∧
      ((combinator.readChannels state).1.stepRules tick).1 =
        combinator.fired tick (host.channels combinator.id)
          (host.wiring combinator.id) := by
  obtain ⟨afterRed, insideRed, red⟩ :=
    readChannel_eq combinator answers inside .red
  obtain ⟨afterGreen, insideGreen, green⟩ :=
    readChannel_eq combinator answers insideRed .green
  obtain ⟨afterWiring, insideWiring, wiring⟩ :=
    answers.wiredTargets combinator.id insideGreen
  simp only [readChannels, red, green]
  cases known : combinator.wired with
  | none =>
      refine ⟨_, afterWiring, insideWiring, rfl, ?_, ?_⟩
      · simp [readWiring, stepRules, stepped, refreshed, wiredOr, known, wiring]
      · simp [stepRules, fired, refreshed]
  | some wired =>
      refine ⟨_, afterGreen, insideGreen, rfl, ?_, ?_⟩
      · simp [readWiring, stepRules, stepped, refreshed, wiredOr, known]
      · simp [stepRules, fired, refreshed]

theorem pass_of_quiet (ledger : Ledger) (answers : Answers Inside host)
    (inside : Inside state)
    (quiet : combinator.Quiet tick (host.channels combinator.id)
      (host.wiring combinator.id)) :
    ∃ next, Inside next ∧ combinator.pass tick ledger state =
      (⟨combinator.id, tick, [], none, none⟩,
        combinator.stepped tick (host.channels combinator.id)
          (host.wiring combinator.id),
        ledger, next) := by
  obtain ⟨between, next, insideNext, same, read, edges⟩ :=
    pass_reads combinator tick answers inside
  obtain ⟨noEdge, sameWiring, sameRules⟩ := quiet
  refine ⟨next, insideNext, ?_⟩
  simp only [pass, same, read, edges]
  rw [if_pos ⟨by simp [noEdge], sameWiring, sameRules⟩, noEdge, stepped_id]

theorem pass_of_not_quiet (ledger : Ledger) (answers : Answers Inside host)
    (inside : Inside state)
    (loud : ¬ combinator.Quiet tick (host.channels combinator.id)
      (host.wiring combinator.id)) :
    ∃ next, Inside next ∧ combinator.pass tick ledger state =
      let after :=
        combinator.stepped tick (host.channels combinator.id)
          (host.wiring combinator.id)
      let wired := combinator.wiredOr (host.wiring combinator.id)
      let (report, ledger', final) :=
        reconcile combinator.id wired after.desired tick ledger next
      (⟨combinator.id, tick,
          combinator.fired tick (host.channels combinator.id)
            (host.wiring combinator.id), some after.desired, some report⟩,
        { after with
          reconciled := TargetSet.ofList wired, rulesChanged := false },
        ledger', final) := by
  obtain ⟨between, next, insideNext, same, read, edges⟩ :=
    pass_reads combinator tick answers inside
  refine ⟨next, insideNext, ?_⟩
  simp only [pass, same, read, edges]
  rw [if_neg]
  · rfl
  · intro conditions
    obtain ⟨noEdge, sameWiring, sameRules⟩ := conditions
    exact loud ⟨List.isEmpty_iff.mp noEdge, sameWiring, sameRules⟩

theorem pass_eq_of_quiet (answers : Answers (· = state) host)
    (quiet : combinator.Quiet tick (host.channels combinator.id)
      (host.wiring combinator.id)) :
    combinator.pass tick ledger state =
      (⟨combinator.id, tick, [], none, none⟩,
        combinator.stepped tick (host.channels combinator.id)
          (host.wiring combinator.id),
        ledger, state) := by
  obtain ⟨_, rfl, passed⟩ := pass_of_quiet ledger answers rfl quiet
  exact passed

theorem pass_eq_of_not_quiet (answers : Answers (· = state) host)
    (loud : ¬ combinator.Quiet tick (host.channels combinator.id)
      (host.wiring combinator.id)) :
    combinator.pass tick ledger state =
      let after :=
        combinator.stepped tick (host.channels combinator.id)
          (host.wiring combinator.id)
      let wired := combinator.wiredOr (host.wiring combinator.id)
      let done := reconcile combinator.id wired after.desired tick ledger state
      (⟨combinator.id, tick,
          combinator.fired tick (host.channels combinator.id)
            (host.wiring combinator.id), some after.desired, some done.1⟩,
        { after with
          reconciled := TargetSet.ofList wired, rulesChanged := false },
        done.2.1, done.2.2) := by
  obtain ⟨_, rfl, passed⟩ := pass_of_not_quiet ledger answers rfl loud
  exact passed

/-- Whether it reconciles or not, a pass leaves the combinator as if it did. -/
theorem pass_combinator (answers : Answers Inside host)
    (inside : Inside state) :
    (combinator.pass tick ledger state).2.1 =
      { combinator.stepped tick (host.channels combinator.id)
        (host.wiring combinator.id) with
        reconciled :=
          TargetSet.ofList (combinator.wiredOr (host.wiring combinator.id))
        rulesChanged := false } := by
  by_cases quiet : combinator.Quiet tick (host.channels combinator.id)
      (host.wiring combinator.id)
  · obtain ⟨next, _, passed⟩ := pass_of_quiet ledger answers inside quiet
    obtain ⟨_, sameWiring, sameRules⟩ := quiet
    rw [passed, sameWiring, ← sameRules]
    rfl
  · obtain ⟨next, _, passed⟩ := pass_of_not_quiet ledger answers inside quiet
    rw [passed]

end Pass

end Combinator

end CircuitSections
