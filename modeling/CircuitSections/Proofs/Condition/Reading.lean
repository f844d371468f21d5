import CircuitSections.Combinator.Basic

/-!
# Conditions and the channels that they read

A condition has the same verdict on channels that agree where it reads, so
nothing is missed by a pass that leaves out the channels that no condition of a
combinator sees.
-/

namespace CircuitSections

theorem ChannelFilter.through_congr {filter : ChannelFilter} {a b : Channels}
    (agree : ∀ channel, filter.reads channel = true →
      a.on channel = b.on channel) :
    a.through filter = b.through filter := by
  cases filter with
  | red => exact agree .red rfl
  | green => exact agree .green rfl
  | both =>
      have red : a.red = b.red := agree .red rfl
      have green : a.green = b.green := agree .green rfl
      rw [Channels.through, Channels.through, red, green]
  | none => rfl

theorem Operand.rightSide_congr {operand : Operand} {a b : Channels}
    (agree : ∀ channel, operand.reads channel = true →
      a.on channel = b.on channel) :
    operand.rightSide a = operand.rightSide b := by
  cases operand with
  | constant value => rfl
  | signal operand =>
      have seen : operand.seen a = operand.seen b :=
        ChannelFilter.through_congr agree
      simp only [rightSide, SignalOperand.rightSide, seen]

theorem Condition.holds_congr {condition : Condition} {a b : Channels}
    (agree : ∀ channel, condition.reads channel = true →
      a.on channel = b.on channel) :
    condition.holds a = condition.holds b := by
  have left : condition.left.seen a = condition.left.seen b := by
    apply ChannelFilter.through_congr
    intro channel reads
    exact agree channel (by simp [Condition.reads, reads])
  have right : condition.right.rightSide a = condition.right.rightSide b := by
    apply Operand.rightSide_congr
    intro channel reads
    exact agree channel (by simp [Condition.reads, reads])
  rw [holds, holds, left, right]

namespace Grouping

variable {α : Type} {joins : α → Option CombineOp} {eval other : α → Id Bool}

theorem resolveLazyFrom_congr {items : List α}
    (agree : ∀ item ∈ items, eval item = other item) (group : Bool) :
    resolveLazyFrom joins eval group items =
      resolveLazyFrom joins other group items := by
  induction items generalizing group with
  | nil => rfl
  | cons item rest induction =>
      have first : eval item = other item := agree item List.mem_cons_self
      have later (group : Bool) := induction
        (fun item member => agree item (List.mem_cons_of_mem _ member)) group
      simp only [resolveLazyFrom, first, later]

theorem resolveLazy_congr {items : List α}
    (agree : ∀ item ∈ items, eval item = other item) :
    resolveLazy joins eval items = resolveLazy joins other items := by
  cases items with
  | nil => rfl
  | cons item rest =>
      have first : eval item = other item := agree item List.mem_cons_self
      have later (group : Bool) :
          resolveLazyFrom joins eval group rest =
            resolveLazyFrom joins other group rest :=
        resolveLazyFrom_congr
          (fun item member => agree item (List.mem_cons_of_mem _ member)) group
      simp only [resolveLazy, first, later]

end Grouping

theorem Rule.holds_congr {rule : Rule} {a b : Channels}
    (agree : ∀ channel, ∀ condition ∈ rule.config.conditions,
      condition.reads channel = true → a.on channel = b.on channel) :
    rule.holds a = rule.holds b := by
  apply Grouping.resolveLazy_congr
  intro condition member
  exact Condition.holds_congr fun channel reads =>
    agree channel condition member reads

/-! ### Leaving channels out -/

/-- What the channels carry where only some of them are read. -/
def Channels.keeping (kept : Channel → Bool) (channels : Channels) : Channels :=
  ⟨if kept .red then channels.red
    else .empty, if kept .green then channels.green else .empty⟩

theorem Channels.on_keeping {kept : Channel → Bool} {channel : Channel}
    (is_kept : kept channel = true) (channels : Channels) :
    (channels.keeping kept).on channel = channels.on channel := by
  cases channel with
  | red => exact if_pos is_kept
  | green => exact if_pos is_kept

theorem Combinator.reads_iff {combinator : Combinator} {channel : Channel} :
    combinator.reads channel = true ↔ ∃ rule ∈ combinator.rules,
      ∃ condition ∈ rule.config.conditions, condition.reads channel = true := by
  simp only [reads, List.any_eq_true]

theorem Rule.holds_keeping {combinator : Combinator} {rule : Rule}
    (member : rule ∈ combinator.rules) (channels : Channels) :
    rule.holds (channels.keeping combinator.reads) = rule.holds channels := by
  apply holds_congr
  intro channel condition listed reads
  have read : combinator.reads channel = true :=
    Combinator.reads_iff.mpr ⟨rule, member, condition, listed, reads⟩
  exact channels.on_keeping read

end CircuitSections
