import CircuitSections.Circuit.Channel
import CircuitSections.Condition.Comparator

/-!
# Conditions

A condition compares what its left operand selects with a constant or with what
its right operand selects.  From the second one on, a condition says how it
joins those before it.
-/

namespace CircuitSections

/-- What an operand selects from the signals it sees. -/
inductive Selector
  /-- One signal. -/
  | signal (signal : Signal)
  /-- Every signal, one comparison each, of which one has to hold. -/
  | each
  /-- Some signal for which the comparison holds. -/
  | anything
  /-- All signals, for each of which the comparison has to hold. -/
  | everything
  deriving DecidableEq

namespace Selector

/-- Whether the selector ranges over signals instead of naming one. -/
def isQuantifier : Selector → Bool
  | .signal _ => false
  | _ => true

def isEach : Selector → Bool
  | .each => true
  | _ => false

def text : Selector → String
  | .signal s => s.text
  | .each => "each"
  | .anything => "anything"
  | .everything => "everything"

end Selector

/-- A selector and the channels it looks at. -/
structure SignalOperand where
  selector : Selector
  channels : ChannelFilter
  /-- Whether a named signal stands for the sum over its qualities. -/
  anyQuality : Bool
  deriving DecidableEq

namespace SignalOperand

/-- An operand that sees both channels. -/
def ofSelector (selector : Selector) : SignalOperand := ⟨selector, .both, false⟩

def seeing (operand : SignalOperand) (channels : ChannelFilter) :
    SignalOperand :=
  { operand with channels }

/-- The operand summed over qualities. -/
def ofAnyQuality (operand : SignalOperand) : SignalOperand :=
  { operand with anyQuality := true }

end SignalOperand

/-- The right side of a condition. -/
inductive Operand
  | constant (value : Int32)
  | signal (operand : SignalOperand)
  deriving DecidableEq

def Operand.text : Operand → String
  | .constant value => toString value.toInt
  | .signal operand => operand.selector.text

/-- How a condition joins the ones before it. -/
inductive CombineOp
  /-- It belongs to the group of the condition before it. -/
  | and
  /-- It starts a new group. -/
  | or
  deriving DecidableEq

/-- One comparison of a rule. -/
structure Condition where
  left : SignalOperand
  comparator : Comparator
  right : Operand
  /-- How the condition joins the ones before it; ignored on the first. -/
  combine : Option CombineOp
  deriving DecidableEq

namespace Condition

/-- A condition that does not say how it joins others. -/
def ofComparison (left : SignalOperand) (comparator : Comparator)
    (right : Operand) : Condition :=
  ⟨left, comparator, right, none⟩

def joined (condition : Condition) (op : CombineOp) : Condition :=
  { condition with combine := some op }

/-- The text of a condition; filters and quality sums are not shown. -/
def text (condition : Condition) : String :=
  condition.left.selector.text ++ " " ++ condition.comparator.symbol ++ " " ++
    condition.right.text

end Condition

end CircuitSections
