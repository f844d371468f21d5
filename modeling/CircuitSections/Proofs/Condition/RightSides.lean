import CircuitSections.Condition.Validity
import CircuitSections.Proofs.Condition.Reading
import CircuitSections.Proofs.Rule.Legality

/-!
# Right sides of valid conditions

Two values stand in for what cannot be read: a quantifier on the right counts as
zero, and so does a right side with a count for each signal where no signal is
compared.  A valid condition meets neither, which is said here by evaluating it
with any other values in their place.
-/

namespace CircuitSections

namespace Condition

/-- The right side is a constant, a named signal, or `each` with `each` on the
left. -/
def HasRightSide (condition : Condition) : Prop :=
  match condition.right with
  | .constant _ => True
  | .signal operand =>
    (∃ s, operand.selector = .signal s) ∨
      operand.selector = .each ∧ condition.left.selector = .each

theorem Legal.hasRightSide {condition : Condition} {index : Nat}
    (legal : condition.Legal index) :
    condition.HasRightSide := by
  unfold HasRightSide
  split
  · exact True.intro
  next operand found =>
    obtain ⟨notAnything, notEverything, bound⟩ := legal.rightBound operand found
    cases picked : operand.selector with
    | signal s => exact .inl ⟨s, rfl⟩
    | each => exact .inr ⟨rfl, bound picked⟩
    | anything => exact absurd picked notAnything
    | everything => exact absurd picked notEverything

theorem hasRightSide_of_validate {condition : Condition} {index : Nat}
    (valid : condition.validate index = .ok ()) : condition.HasRightSide :=
  Legal.hasRightSide
    (legal_iff.mpr ((condition.reports_validate index).accepts valid))

theorem hasRightSide_of_validateFrom {conditions : List Condition} {start : Nat}
    (valid : validateFrom start conditions = .ok ()) :
    ∀ condition ∈ conditions, condition.HasRightSide := by
  intro condition listed
  obtain ⟨index, found⟩ := List.mem_iff_getElem?.mp listed
  have sound := (reports_validateFrom conditions start).accepts valid
  have legal : condition.Legal (start + index) :=
    legal_iff.mpr fun check cause fault =>
      sound check cause ⟨index, condition, found, fault⟩
  exact legal.hasRightSide

end Condition

/-! ### Other values in place of the missing ones -/

/-- The values that stand in for what cannot be read. -/
structure StandIns where
  /-- The value of a quantifier on the right. -/
  quantifier : Int32
  /-- The value of a right side with a count for each signal where none is
  compared. -/
  scalar : Int32

namespace StandIns

variable (standIns : StandIns)

/-- The right side with the stand-in for a quantifier. -/
def rightSide (operand : Operand) (channels : Channels) : RightSide :=
  match operand with
  | .constant value => .shared value
  | .signal operand =>
    match operand.selector with
    | .signal s =>
      .shared ((operand.seen channels).countOf s operand.anyQuality)
    | .each => .perSignal (operand.seen channels)
    | .anything | .everything => .shared standIns.quantifier

/-- The value for a comparison without any signal. -/
def scalarOf : RightSide → Int32
  | .shared value => value
  | .perSignal _ => standIns.scalar

/-- The verdict on a condition with the stand-ins in their places. -/
def holds (condition : Condition) (channels : Channels) : Bool :=
  let left := condition.left.seen channels
  let right := standIns.rightSide condition.right channels
  let holdsOf := fun (s, count) =>
    condition.comparator.holds count (right.against s)
  match condition.left.selector with
  | .signal s => holdsOf (s, left.countOf s condition.left.anyQuality)
  | .anything | .each => left.toList.any holdsOf
  | .everything =>
    if left.isEmpty then condition.comparator.holds 0 (standIns.scalarOf right)
    else left.toList.all holdsOf

/-- The verdict on a list of conditions. -/
def allHold (conditions : List Condition) (channels : Channels) : Bool :=
  Id.run (Grouping.resolveLazy Condition.combine
    (fun condition => pure (standIns.holds condition channels)) conditions)

/-- Both stand-ins are zero. -/
def zero : StandIns := ⟨0, 0⟩

theorem holds_zero (condition : Condition) (channels : Channels) :
    zero.holds condition channels = condition.holds channels := by
  obtain ⟨⟨picked, seen, summed⟩, comparator, right, combine⟩ := condition
  have same : zero.rightSide right channels = right.rightSide channels := by
    cases right with
    | constant value => rfl
    | signal operand =>
        obtain ⟨selector, channels, anyQuality⟩ := operand
        cases selector <;> rfl
  have scalar (side : RightSide) : zero.scalarOf side = side.scalar := by
    cases side <;> rfl
  cases picked <;>
    simp only [holds, Condition.holds, Selector.holds, same, scalar]

theorem holds_of_hasRightSide {condition : Condition}
    (sided : condition.HasRightSide) (channels : Channels) :
    standIns.holds condition channels = condition.holds channels := by
  rw [← holds_zero]
  obtain ⟨⟨picked, seen, summed⟩, comparator, right, combine⟩ := condition
  cases right with
  | constant value => rfl
  | signal operand =>
      obtain ⟨selector, filter, anyQuality⟩ := operand
      rcases sided with ⟨s, named⟩ | ⟨each, picked⟩
      · cases named
        rfl
      · cases each
        cases picked
        rfl

theorem allHold_of_hasRightSide {conditions : List Condition}
    (sided : ∀ condition ∈ conditions, condition.HasRightSide)
    (channels : Channels) :
    standIns.allHold conditions channels =
      Condition.allHold conditions channels := by
  apply Grouping.resolveLazy_congr
  intro condition member
  exact standIns.holds_of_hasRightSide (sided condition member) channels

end StandIns

end CircuitSections
