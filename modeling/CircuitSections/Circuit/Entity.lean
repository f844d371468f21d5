import CircuitSections.Ordered.Ascending

/-!
# Entities

Combinators, targets and the sections on targets are known by the numbers that
the host gives them.
-/

namespace CircuitSections

/-- What a host number stands for. -/
inductive EntityKind
  /-- An entity that carries sections. -/
  | target
  /-- An entity that reads the circuit and holds rules. -/
  | combinator
  /-- A section on a target. -/
  | handle
  deriving DecidableEq

/-- A host number for an entity of one kind. -/
structure EntityId (kind : EntityKind) where
  number : UInt64
  deriving DecidableEq

abbrev TargetId := EntityId .target

abbrev CombinatorId := EntityId .combinator

/-- The number of a section, unique on its host. -/
abbrev SectionHandle := EntityId .handle

namespace EntityId

variable {kind : EntityKind}

instance : Ord (EntityId kind) := ⟨compareOn number⟩

instance : Std.TransOrd (EntityId kind) :=
  inferInstanceAs (Std.TransCmp (compareOn number))

instance : Std.LawfulEqOrd (EntityId kind) where
  compare_self := Std.ReflOrd.compare_self
  eq_of_compare {a b} equal := by
    cases a
    cases b
    cases Std.LawfulEqOrd.eq_of_compare (α := UInt64) equal
    rfl

def digits (id : EntityId kind) : String := toString id.number.toNat

/-- The text of an entity: its kind and number.  A handle is shown as an opaque
value. -/
def text : {kind : EntityKind} → EntityId kind → String
  | .target, id => "target#" ++ id.digits
  | .combinator, id => "combinator#" ++ id.digits
  | .handle, id => "SectionHandle(" ++ id.digits ++ ")"

end EntityId

abbrev TargetSet := Ascending fun target : TargetId => target

abbrev TargetSet.ofList (targets : List TargetId) : TargetSet :=
  Ascending.ofList targets

end CircuitSections
