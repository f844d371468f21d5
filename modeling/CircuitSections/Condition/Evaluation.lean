import CircuitSections.Condition.Basic

/-!
# Evaluating a condition

A comparison ranges over the signals that its left selector picks from what the
left operand sees.  The right side is one value for all of them, except that
`each` on both sides compares every signal with itself.
-/

namespace CircuitSections

/-- A right side that has been read. -/
inductive RightSide
  /-- One value for every comparison. -/
  | shared (value : Int32)
  /-- For each signal its own count. -/
  | perSignal (store : SignalStore)

namespace RightSide

/-- The value with which a signal is compared. -/
def against (right : RightSide) (signal : Signal) : Int32 :=
  match right with
  | .shared value => value
  | .perSignal store => store.get signal

/-- The value with which a comparison without any signal is made. -/
def scalar : RightSide → Int32
  | .shared value => value
  | .perSignal _ => 0

end RightSide

/-- The count of a signal, or of all its qualities together. -/
def SignalStore.countOf (store : SignalStore) (signal : Signal)
    (anyQuality : Bool) : Int32 :=
  if anyQuality then store.countAnyQuality signal.base else store.get signal

/-- Whether a comparison holds of what is seen on the left. -/
def Selector.holds (selector : Selector) (anyQuality : Bool)
    (comparator : Comparator) (left : SignalStore) (right : RightSide) : Bool :=
  let holdsOf := fun (s, count) => comparator.holds count (right.against s)
  match selector with
  | .signal s => holdsOf (s, left.countOf s anyQuality)
  | .anything | .each => left.toList.any holdsOf
  | .everything =>
    if left.isEmpty then comparator.holds 0 right.scalar
      else left.toList.all holdsOf

namespace SignalOperand

/-- What the operand sees of the channels. -/
def seen (operand : SignalOperand) (channels : Channels) : SignalStore :=
  channels.through operand.channels

/-- The operand as a right side.  A quantifier other than `each` has no value
there and counts as zero. -/
def rightSide (operand : SignalOperand) (channels : Channels) : RightSide :=
  match operand.selector with
  | .signal s => .shared ((operand.seen channels).countOf s operand.anyQuality)
  | .each => .perSignal (operand.seen channels)
  | _ => .shared 0

end SignalOperand

def Operand.rightSide (operand : Operand) (channels : Channels) : RightSide :=
  match operand with
  | .constant value => .shared value
  | .signal operand => operand.rightSide channels

def Condition.holds (condition : Condition) (channels : Channels) : Bool :=
  condition.left.selector.holds condition.left.anyQuality condition.comparator
    (condition.left.seen channels) (condition.right.rightSide channels)

end CircuitSections
