import CircuitSections.Section.Spec

/-!
# Edit plans

The edits that lead from the specs owned on a target to the desired ones: what
is owned and not desired is removed, what is desired and not owned is added, and
nothing else is touched.
-/

namespace CircuitSections

/-- Specs to remove and specs to add afterwards, each list ascending. -/
structure EditPlan where
  remove : List SectionSpec
  inject : List SectionSpec
  deriving DecidableEq

namespace EditPlan

/-- The plan that leads from the owned specs to the desired ones. -/
def between (owned desired : SpecSet) : EditPlan :=
  ⟨(owned.difference desired).toList, (desired.difference owned).toList⟩

def isEmpty (plan : EditPlan) : Bool :=
  plan.remove.isEmpty && plan.inject.isEmpty

end EditPlan

end CircuitSections
