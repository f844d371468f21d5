import CircuitSections.Error
import CircuitSections.Section.Spec
import CircuitSections.Text.Blank

/-!
# Valid section specs

A group name must hold more than blank characters and, trimmed, at most 256
bytes; a multiplier must be finite and positive.
-/

namespace CircuitSections.SectionSpec

/-- The most bytes of a trimmed group name. -/
def maxNameBytes : Nat := 256

/-- Checks the name, then the multiplier. -/
def validate (spec : SectionSpec) : Except ValidationError Unit :=
  let name := Text.trim spec.name.toList
  if name = [] then .error .blankGroupName
  else if maxNameBytes <
    Text.byteLength name then .error (.groupNameTooLong maxNameBytes)
  else if spec.multiplier.isFinite ∧ 0 < spec.multiplier.rank then .ok ()
  else .error (.multiplierOutOfRange spec.multiplier)

end CircuitSections.SectionSpec
