import CircuitSections.Error
import CircuitSections.Text.Blank

/-!
# Valid conditions

Conditions are checked when a configuration is accepted, so that evaluation
never meets a right side without a value.  The first fault is reported.
-/

namespace CircuitSections

/-- A named signal needs a name that is not blank. -/
def Selector.checkName : Selector → Except ValidationError Unit
  | .signal s =>
    if Text.trim s.name.toList = [] then .error .blankSignalName else .ok ()
  | _ => .ok ()

/-- On the right a signal or a constant may stand, and `each` if it also stands
on the left. -/
def Selector.checkRight (right left : Selector) (index : Nat) :
    Except ValidationError Unit :=
  match right with
  | .signal _ => .ok ()
  | .each => if left.isEach then .ok () else .error (.eachWithoutEach index)
  | .anything | .everything => .error (.quantifierOnRight index right)

namespace Condition

def checkRight (condition : Condition) (index : Nat) :
    Except ValidationError Unit :=
  match condition.right with
  | .constant _ => .ok ()
  | .signal operand => do
    operand.selector.checkName
    operand.selector.checkRight condition.left.selector index

/-- Every condition but the first says how it joins those before it. -/
def checkCombine (condition : Condition) (index : Nat) :
    Except ValidationError Unit :=
  if 0 < index ∧ condition.combine = none then .error (.missingCombineOp index)
    else .ok ()

/-- Checks a condition at its place in the list. -/
def validate (condition : Condition) (index : Nat) :
    Except ValidationError Unit := do
  condition.left.selector.checkName
  condition.checkRight index
  condition.checkCombine index

def validateFrom (index : Nat) : List Condition → Except ValidationError Unit
  | [] => .ok ()
  | condition :: rest => do
    condition.validate index
    validateFrom (index + 1) rest

def validateAll (conditions : List Condition) : Except ValidationError Unit :=
  validateFrom 0 conditions

end Condition

end CircuitSections
