import CircuitSections.Host.Recorded
import CircuitSections.Proofs.Combinator.Policy

/-!
# Silent passes

A pass reconciles because of four things that the combinator remembers: the
results of its rules, its wiring, the targets that it last reconciled, and
whether its rules were set.  Every pass brings all four up to date, whatever
becomes of its edits, so the next one on the same channels finds no reason to do
anything.
-/

namespace CircuitSections

namespace Combinator

variable {σ : Type}

/-- All that a combinator remembers is as a pass leaves it. -/
structure UpToDate (combinator : Combinator) : Prop where
  results : ∀ rule ∈ combinator.rules, rule.previousResult =
    rule.holds combinator.channels
  wiring : ∃ targets, combinator.wired = some targets ∧
    combinator.reconciled = TargetSet.ofList targets
  rulesChanged : combinator.rulesChanged = false

theorem stepRules_results (combinator : Combinator) (tick : UInt64) :
    ∀ rule ∈ (combinator.stepRules tick).2.rules,
      rule.previousResult = rule.holds combinator.channels := by
  simp only [stepRules, List.map_map, List.mem_map, Function.comp_apply]
  rintro _ ⟨old, _, rfl⟩
  rw [Rule.step_previousResult]
  exact Rule.holds_of_config (Rule.step_config _ _ _).symm _

theorem stepRules_reads (combinator : Combinator) (tick : UInt64) :
    (combinator.stepRules tick).2.reads = combinator.reads := by
  funext channel
  simp only [reads, stepRules, List.map_map, List.any_map, Function.comp_def,
    Rule.step_config]

theorem stepRules_of_results {combinator : Combinator}
    (results : ∀ rule ∈ combinator.rules, rule.previousResult =
      rule.holds combinator.channels)
    (tick : UInt64) : combinator.stepRules tick = ([], combinator) := by
  have still : ∀ rule ∈ combinator.rules,
      rule.step combinator.channels tick = (none, rule) := by
    intro rule member
    have noEdge := (Rule.step_eq_none_iff rule combinator.channels tick).mpr
      (results rule member)
    exact Prod.ext noEdge (Rule.step_of_none noEdge)
  have steps :
      (combinator.rules.map fun rule => rule.step combinator.channels tick) =
      combinator.rules.map fun rule => (none, rule) := List.map_congr_left still
  simp [stepRules, steps, List.filterMap_map, Function.comp_def]

section Pass

variable [ChannelReader σ] [WiringReader σ] [SectionEditor σ]

/-- Whatever happens in a pass, on any host, it leaves its combinator up to
date. -/
theorem upToDate_pass (combinator : Combinator) (tick : UInt64)
    (ledger : Ledger) (host : σ) :
    let after := (combinator.pass tick ledger host).2.1
    after.UpToDate ∧ after.id = combinator.id ∧ after.reads = combinator.reads ∧
      after.channels = (combinator.readChannels host).1.channels := by
  let read := (combinator.readChannels host).1
  have results := read.stepRules_results tick
  have reads : (read.stepRules tick).2.reads = combinator.reads :=
    read.stepRules_reads tick
  obtain ⟨targets, left⟩ := combinator.pass_leaves tick ledger host
  rw [left]
  exact ⟨⟨results, ⟨targets, rfl, rfl⟩, rfl⟩, rfl, reads, rfl⟩

/-- A pass of a combinator that is up to date does nothing but read, if it reads
again what it remembers. -/
theorem UpToDate.pass {combinator : Combinator} (upToDate : combinator.UpToDate)
    {host : σ}
    (same : (combinator.readChannels host).1.channels = combinator.channels)
    (tick : UInt64) (ledger : Ledger) :
    combinator.pass tick ledger host =
      (⟨combinator.id, tick, [], none, none⟩, combinator, ledger,
        (combinator.readChannels host).2) := by
  obtain ⟨results, ⟨targets, wired, reconciled⟩, unchanged⟩ := upToDate
  have read : (combinator.readChannels host).1 = combinator := by
    calc
      _ = { combinator with
        channels := (combinator.readChannels host).1.channels } := rfl
      _ = combinator := by rw [same]
  unfold Combinator.pass
  dsimp only
  rw [read, stepRules_of_results results]
  simp only [readWiring, wired]
  rw [if_pos ⟨rfl, reconciled.symm, unchanged⟩]

end Pass

/-! ### The calls of a silent pass -/

/-- The calls by which a combinator reads the channels that some condition
sees. -/
def channelCalls (combinator : Combinator) : List HostCall :=
  ([.red, .green].filter combinator.reads).map (.channel combinator.id)

theorem readChannels_recorded [ChannelReader σ] (combinator : Combinator)
    (asked : Recorded σ) :
    combinator.readChannels asked =
      ((combinator.readChannels asked.host).1,
        ⟨(combinator.readChannels asked.host).2,
          asked.calls ++ combinator.channelCalls⟩) := by
  have read (channel : Channel) (asked : Recorded σ) :
      combinator.readChannel channel asked =
        ((combinator.readChannel channel asked.host).1,
          ⟨(combinator.readChannel channel asked.host).2, asked.calls ++
            if combinator.reads channel then [.channel combinator.id channel]
              else []⟩) := by
    unfold readChannel
    split
    · rfl
    · rw [List.append_nil]
  simp only [readChannels, read, channelCalls, List.filter_cons,
    List.filter_nil]
  cases combinator.reads .red <;> cases combinator.reads .green <;> simp

/-- A pass that follows another one and finds the same on the channels asks for
nothing else. -/
theorem pass_after_pass {τ : Type} [ChannelReader σ] [WiringReader σ]
    [SectionEditor σ] [ChannelReader τ] [WiringReader τ] [SectionEditor τ]
    (combinator : Combinator) (tick again : UInt64) (ledger later : Ledger)
    (host : σ) (asked : Recorded τ) :
    let after := (combinator.pass tick ledger host).2.1
    let read := after.readChannels asked.host
    read.1.channels = (combinator.readChannels host).1.channels →
      after.pass again later asked =
        (⟨combinator.id, again, [], none, none⟩, after, later,
          ⟨read.2, asked.calls ++ combinator.channelCalls⟩) := by
  intro after read same
  obtain ⟨upToDate, named, reads, channels⟩ :=
    combinator.upToDate_pass tick ledger host
  have recorded := after.readChannels_recorded asked
  have reread : (after.readChannels asked).1.channels = after.channels := by
    rw [recorded, channels]
    exact same
  have calls : after.channelCalls = combinator.channelCalls := by
    rw [channelCalls, channelCalls, named, reads]
  rw [upToDate.pass reread, recorded, named, calls]

end Combinator

end CircuitSections
