import CircuitSections.Proofs.Combinator.Policy

/-!
# Channels that are not read

A pass asks its host only for the channels that some condition sees, and takes
the others as empty.  Whether a channel is seen is decided apart from the
evaluation of conditions; the two agree for every filter and on both sides of a
condition.
-/

namespace CircuitSections

/-- An operand of the condition looks at the channel. -/
def Condition.Sees (condition : Condition) (channel : Channel) : Prop :=
  condition.left.channels.reads channel = true ∨
    ∃ operand, condition.right = .signal operand ∧
      operand.channels.reads channel = true

theorem Condition.reads_iff_sees {condition : Condition} {channel : Channel} :
    condition.reads channel = true ↔ condition.Sees channel := by
  unfold reads Sees
  rw [Bool.or_eq_true]
  apply or_congr_right
  cases condition.right with
  | constant value => simp [Operand.reads]
  | signal operand => simp [Operand.reads]

theorem ChannelFilter.reads_iff {filter : ChannelFilter} {channel : Channel} :
    filter.reads channel = true ↔ ∃ a b : Channels,
      (∀ other, other ≠ channel → a.on other = b.on other) ∧
        a.through filter ≠ b.through filter := by
  constructor
  · intro reads
    let iron : SignalStore := .ofList [(.ofName .item "iron", 1)]
    refine ⟨.empty, (⟨iron, iron⟩ : Channels).keeping (· = channel), ?_, ?_⟩
    · intro other different
      cases channel <;> cases other <;> first | rfl | exact absurd rfl different
    · cases filter <;> cases channel <;> revert reads <;> decide +kernel
  · rintro ⟨a, b, agree, differ⟩
    cases reads : filter.reads channel with
    | true => rfl
    | false =>
        refine absurd (through_congr fun other seen => agree other ?_) differ
        rintro rfl
        exact absurd (seen.symm.trans reads) Bool.true_eq_false.mp

namespace Combinator

theorem readChannels_eq (combinator : Combinator) (host : MemoryHost) :
    combinator.readChannels host =
      ({ combinator with
        channels := (host.channelsOf combinator.id).keeping combinator.reads },
          host) := by
  have read (channel : Channel) : combinator.readChannel channel host =
      (if combinator.reads channel then host.channels combinator.id channel
        else .empty, host) := by
    unfold readChannel
    split <;> rfl
  simp only [readChannels, read]
  rfl

/-- Rules step on what a pass reads as they step on all that the channels carry.
A condition depends on no channel but those that its operands look at, and a
filter reads no channel without need. -/
theorem unread_channels_irrelevant (combinator : Combinator) (host : MemoryHost)
    (channels : Channels) (tick : UInt64) :
    (∀ channel, combinator.reads channel = true ↔ ∃ rule ∈ combinator.rules,
        ∃ condition ∈ rule.config.conditions, condition.Sees channel) ∧
      (∀ rule ∈ combinator.rules,
        rule.step (channels.keeping combinator.reads) tick =
          rule.step channels tick) ∧
      (let read := (combinator.readChannels host).1.stepRules tick
        let all := { combinator with
          channels := host.channelsOf combinator.id }.stepRules tick
        read.1 = all.1 ∧ read.2.rules = all.2.rules) ∧
      (∀ (condition : Condition) (a b : Channels),
        (∀ channel, condition.Sees channel → a.on channel = b.on channel) →
          condition.holds a = condition.holds b) ∧
      ∀ (filter : ChannelFilter) (channel : Channel),
        filter.reads channel = true ↔
        ∃ a b : Channels, (∀ other, other ≠ channel → a.on other = b.on other) ∧
          a.through filter ≠ b.through filter := by
  have steps (channels : Channels) : ∀ rule ∈ combinator.rules,
      rule.step (channels.keeping combinator.reads) tick =
        rule.step channels tick := by
    intro rule member
    rw [Rule.step, Rule.step, Rule.holds_keeping member]
  refine ⟨?_, steps channels, ?_, ?_, fun filter channel =>
    ChannelFilter.reads_iff⟩
  · intro channel
    simp only [reads_iff, Condition.reads_iff_sees]
  · rw [readChannels_eq]
    have same := List.map_congr_left (steps (host.channelsOf combinator.id))
    simp only [stepRules, same]
    exact ⟨trivial, trivial⟩
  · intro condition a b agree
    apply Condition.holds_congr
    intro channel reads
    exact agree channel (Condition.reads_iff_sees.mp reads)

/-- Whether all that is on red counts zero, or some of it equals itself. -/
def redWatcher : Combinator :=
  let everything : Condition :=
    ⟨⟨.everything, .red, false⟩, .equal, .constant 0, none⟩
  let each : Condition :=
    ⟨⟨.each, .red, false⟩, .equal, .signal ⟨.each, .red, false⟩, some .or⟩
  { empty ⟨7⟩ with
    rules :=
      [.fresh ⟨0⟩ ⟨[everything, each], .inject, ⟨"iron", .ofParts false 0⟩⟩] }

/-- Nothing on red and iron on green. -/
def greenIron : Channels := ⟨.empty, .ofList [(.ofName .item "iron", 7)]⟩

theorem unread_channels_irrelevant_redWatcher :
    greenIron.keeping redWatcher.reads = .empty ∧
      (∀ rule ∈ redWatcher.rules,
        rule.step (greenIron.keeping redWatcher.reads) 5 =
          rule.step greenIron 5) ∧
      ∀ rule ∈ redWatcher.rules, ∀ condition ∈ rule.config.conditions,
        condition.holds greenIron = condition.holds .empty := by
  obtain ⟨seen, steps, _, depends, _⟩ :=
    unread_channels_irrelevant redWatcher .empty greenIron 5
  refine ⟨by decide +kernel, steps, ?_⟩
  intro rule member condition listed
  apply depends
  intro channel sees
  cases channel with
  | red => rfl
  | green =>
      have read := (seen .green).mpr ⟨rule, member, condition, listed, sees⟩
      exact absurd read (by decide)

end Combinator

end CircuitSections
