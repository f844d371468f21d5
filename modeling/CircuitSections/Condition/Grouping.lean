import CircuitSections.Condition.Evaluation

/-!
# Grouping by precedence

Conditions are grouped from left to right: one joined by `or` starts a new group
and every other one belongs to the group before it.  A group holds when all its
members do, and the whole holds when some group does; without conditions it does
not.  The operator of the first condition is ignored.
-/

namespace CircuitSections

namespace Grouping

/-- Whether a result that is joined this way starts a new group. -/
def startsGroup (op : Option CombineOp) : Bool := op = some .or

/-- The verdict on results already known, and the pairs that were never looked
at.  `group` tells whether the current group holds so far. -/
def resolveFrom (group : Bool) :
    List (Option CombineOp × Bool) → Bool × List (Option CombineOp × Bool)
  | [] => (group, [])
  | (op, result) :: rest =>
    if startsGroup op then
      if group then (true, rest) else resolveFrom result rest
    else resolveFrom (group && result) rest

/-- The verdict on a list of results and how they are joined, and the pairs that
were never looked at. -/
def resolve : List (Option CombineOp × Bool) →
    Bool × List (Option CombineOp × Bool)
  | [] => (false, [])
  | (_, result) :: rest => resolveFrom result rest

variable {α : Type} {m : Type → Type} [Monad m]

/-- The verdict on the items after a group that holds so far, or not.  An item
is evaluated only if its group may still hold. -/
def resolveLazyFrom (joins : α → Option CombineOp) (eval : α → m Bool)
    (group : Bool) :
    List α → m Bool
  | [] => pure group
  | item :: rest =>
    if startsGroup (joins item) then
      if group then pure true
      else eval item >>= fun result => resolveLazyFrom joins eval result rest
    else if group then eval item >>= fun result =>
      resolveLazyFrom joins eval result rest
    else resolveLazyFrom joins eval false rest

/-- The verdict on a list of items, each evaluated only while its result can
change the verdict. -/
def resolveLazy (joins : α → Option CombineOp) (eval : α → m Bool) :
    List α → m Bool
  | [] => pure false
  | item :: rest =>
    eval item >>= fun result => resolveLazyFrom joins eval result rest

end Grouping

namespace Condition

/-- Whether a list of conditions holds on the channels. -/
def allHold (conditions : List Condition) (channels : Channels) : Bool :=
  Id.run
    (Grouping.resolveLazy combine
      (fun condition => pure (condition.holds channels))
      conditions)

end Condition

end CircuitSections
