import CircuitSections.Decimal.Reading
import CircuitSections.Json.Tree

/-!
# Parts of a document

A value is read from a part of a document.  Parts are met in written order, but
some must wait for what stands behind them.  Such a part is set aside, which
asks more of it, down to its last leaf, than skipping it does.
-/

namespace CircuitSections.Json

mutual

/-- Whether every text is a string, every number is finite, and at most `room`
arrays and objects lie inside one another. -/
def isSound (room : Nat) : Json → Bool
  | .number value => value.magnitude?.isSome
  | .string value => value.isSome
  | .array items => 0 < room && itemsAreSound (room - 1) items
  | .object members => 0 < room && membersAreSound (room - 1) members
  | _ => true

def itemsAreSound (room : Nat) : List Json → Bool
  | [] => true
  | item :: items => isSound room item && itemsAreSound room items

def membersAreSound (room : Nat) : List (Option String × Json) → Bool
  | [] => true
  | (name, value) :: members =>
    name.isSome && isSound room value && membersAreSound room members

end

/-- Where a part of a document stands. -/
inductive Place
  /-- Where it is met, inside the given number of arrays and objects. -/
  | inOrder (depth : Nat)
  /-- In what has been set aside. -/
  | setAside
  deriving DecidableEq

/-- A part of a document. -/
structure Part where
  place : Place
  json : Json

namespace Part

/-- A whole document. -/
def whole (json : Json) : Part := ⟨.inOrder 0, json⟩

/-- A part directly inside another. -/
def inside (outer : Part) (json : Json) : Part :=
  match outer.place with
  | .inOrder depth => ⟨.inOrder (depth + 1), json⟩
  | .setAside => ⟨.setAside, json⟩

/-- The most arrays and objects inside one another where a part is set aside. -/
def greatestDepth : Nat := 127

/-- A part that waits for what stands behind it. -/
def setAside? (part : Part) : Option Part :=
  match part.place with
  | .inOrder depth =>
    if part.json.isSound (greatestDepth - depth) then some
      ⟨.setAside, part.json⟩ else none
  | .setAside => some part

end Part

end CircuitSections.Json
