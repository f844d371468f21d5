import CircuitSections.Decimal.Numeral

/-!
# JSON documents

The tree of a JSON document, with the members of an object in written order and
repeated keys kept.  Numbers stay numerals, so nothing is rounded before a
reader asks for a value.
-/

namespace CircuitSections

/-- A JSON document.

A string is absent where an escape names half of a surrogate pair: such a text
is well formed and can be skipped, but holds no string. -/
inductive Json
  | null
  | bool (value : Bool)
  | number (value : Numeral)
  | string (value : Option String)
  | array (items : List Json)
  | object (members : List (Option String × Json))

namespace Json

def ofString (value : String) : Json := .string (some value)

def ofInt (value : Int) : Json := .number (.ofInt value)

def ofNat (value : Nat) : Json := .number (.ofNat value)

def ofMembers (members : List (String × Json)) : Json :=
  .object (members.map fun (name, value) => (some name, value))

end Json

end CircuitSections
