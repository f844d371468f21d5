import CircuitSections.Ordered.Ascending
import CircuitSections.Section.Multiplier

/-!
# Section specs

A section is made from a group name and a multiplier.  Two specs are the same
when their keys are: names are told apart by their code points and multipliers
by their ranks, so zeros of either sign agree, and so do all multipliers that
are no numbers.
-/

namespace CircuitSections

/-- What tells section specs apart: the group name, then the multiplier's
rank. -/
structure SpecKey where
  name : String
  rank : Int
  deriving DecidableEq

namespace SpecKey

instance : Ord SpecKey := ⟨compareLex (compareOn name) (compareOn rank)⟩

instance : Std.TransOrd SpecKey :=
  inferInstanceAs (Std.TransCmp (compareLex (compareOn name) (compareOn rank)))

instance : Std.LawfulEqOrd SpecKey where
  compare_self := Std.ReflOrd.compare_self
  eq_of_compare {a b} equal := by
    obtain ⟨names, ranks⟩ := compareLex_eq_eq.mp equal
    cases a
    cases b
    cases Std.LawfulEqOrd.eq_of_compare (α := String) names
    cases Std.LawfulEqOrd.eq_of_compare (α := Int) ranks
    rfl

end SpecKey

/-- A configuration group to be placed on a target: its name and multiplier. -/
structure SectionSpec where
  name : String
  multiplier : Multiplier
  deriving DecidableEq

namespace SectionSpec

/-- What tells the spec apart from others. -/
def key (spec : SectionSpec) : SpecKey := ⟨spec.name, spec.multiplier.rank⟩

/-- Whether two specs are the same. -/
def same (a b : SectionSpec) : Bool := a.key = b.key

def text (spec : SectionSpec) : String :=
  spec.name ++ " x" ++ String.ofList spec.multiplier.text

end SectionSpec

abbrev SpecSet := Ascending SectionSpec.key

end CircuitSections
