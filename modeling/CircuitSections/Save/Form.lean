import CircuitSections.Json.Part
import CircuitSections.Json.Printer
import CircuitSections.Json.Reader

/-!
# Saved forms

What a value looks like in a JSON document and which documents are read as one.

A record is an object with its fields under their names, in any order and among
unknown ones, or an array of its fields in order.  A choice without content is a
string, and a choice with content an object with a tag and the content, or an
array of the two.  Content in front of its tag is set aside.
-/

namespace CircuitSections

/-- Types whose values are saved. -/
class Saved (α : Type) where
  /-- The document of a value. -/
  save : α → Json
  /-- The value that a part of a document holds. -/
  ofPart? : Json.Part → Option α

export Saved (save ofPart?)

/-- The value that a document holds. -/
def load? {α : Type} [Saved α] (document : Json) : Option α :=
  ofPart? (.whole document)

/-- The text of a saved value. -/
def saveText {α : Type} [Saved α] (value : α) : String := (save value).write

/-- The value that a text holds. -/
def loadText? {α : Type} [Saved α] (text : String) : Option α :=
  Json.read? text.toList >>= load?

namespace Json

/-! ### Members and items -/

/-- Whether every key is a string and no known one is repeated. -/
def keysAreSound (names : List String) (members : List (Option String × Json)) :
    Bool :=
  members.all (fun member => member.1.isSome) &&
    names.all fun name =>
      (members.filter fun member => member.1 = some name).length ≤ 1

/-- The first member under a name. -/
def member? (members : List (Option String × Json))
    (name : String) : Option Json :=
  (members.find? fun member => member.1 = some name).map Prod.snd

/-- The item of an array at the place of a name. -/
def item? (names : List String) (items : List Json)
    (name : String) : Option Json :=
  ((names.zip items).find? fun (known, _) => known = name).map Prod.snd

/-- Whether the first member under one of two names has the first of them. -/
def leads (first second : String) (members : List (Option String × Json)) :
    Bool :=
  (members.find? fun member => member.1 = some first ∨
    member.1 = some second).map Prod.fst =
      some (some first)

namespace Part

/-! ### Records -/

/-- The fields of a record, found by their names. -/
abbrev Fields := String → Option Part

/-- The fields of a record whose known names are given in order. -/
def fields? (names : List String) (part : Part) : Option Fields :=
  match part.json with
  | .object members =>
    if keysAreSound names members then some fun name =>
      (member? members name).map part.inside
    else none
  | .array items =>
    if items.length ≤ names.length then some fun name =>
      (item? names items name).map part.inside
    else none
  | _ => none

/-- A field that must be there. -/
def Fields.required {α : Type} [Saved α] (fields : Fields)
    (name : String) : Option α :=
  fields name >>= ofPart?

/-- A field that may be left out. -/
def Fields.optional {α : Type} [Saved α] (fields : Fields)
    (name : String) (absent : α) :
    Option α :=
  match fields name with
  | none => some absent
  | some part => ofPart? part

/-! ### Choices -/

/-- The name of a choice without content.

It may also be the only key of an object over a null, or over an empty object in
what has been set aside. -/
def name? (part : Part) : Option String :=
  match part.json, part.place with
  | .string name, _ => name
  | .object [(some name, .null)], _ => some name
  | .object [(some name, .object [])], .setAside => some name
  | _, _ => none

/-- The value of a name. -/
def choose? {α : Type} (choices : List (String × α)) (part : Part) : Option α :=
  part.name? >>= fun name => choices.lookup name

/-- One case of a choice with a tag. -/
structure Case (α : Type) where
  tag : String
  /-- The value that the case makes of its content. -/
  ofContent? : Option Part → Option α

namespace Case

/-- A case without content; a null is as good as none. -/
def bare {α : Type} (tag : String) (value : α) : Case α where
  tag
  ofContent?
    | none => some value
    | some ⟨_, .null⟩ => some value
    | some _ => none

/-- A case that must have content. -/
def holding {α β : Type} [Saved α] (tag : String) (value : α → β) : Case β where
  tag
  ofContent?
    | none => none
    | some content => (ofPart? content).map value

end Case

/-- The case of a name. -/
def caseOf? {α : Type} (cases : List (Case α)) (name : String) :
    Option (Case α) :=
  cases.find? fun case => case.tag = name

/-- The case of the tag in front of an array.

The tag is a string; in what has been set aside the position of the case will
do. -/
def caseInFront? {α : Type} (cases : List (Case α)) (tag : Part) :
    Option (Case α) :=
  match tag.json, tag.place with
  | .string (some name), _ => caseOf? cases name
  | .number value, .setAside => do
    let position ← value.integer?
    if 0 ≤ position then cases[position.toNat]? else none
  | _, _ => none

/-- The value of a choice with a tag. -/
def tagged? {α : Type} (tag content : String) (cases : List (Case α))
    (part : Part) :
    Option α :=
  match part.json with
  | .object members =>
    if keysAreSound [tag, content] members then do
      let name ← (member? members tag).map part.inside >>= name?
      let case ← caseOf? cases name
      match (member? members content).map part.inside with
      | none => case.ofContent? none
      | some inner =>
        if leads content tag members then
          inner.setAside? >>= fun kept => case.ofContent? (some kept)
        else case.ofContent? (some inner)
    else none
  | .array [first, second] => do
    let case ← caseInFront? cases (part.inside first)
    case.ofContent? (some (part.inside second))
  | _ => none

end Part

/-! ### Integers -/

/-- The integer that a number spells. -/
def integer? : Json → Option Int
  | .number value => value.integer?
  | _ => none

end Json

instance : Saved Bool where
  save := .bool
  ofPart? part :=
    match part.json with
    | .bool value => some value
    | _ => none

instance : Saved String where
  save := .ofString
  ofPart? part :=
    match part.json with
    | .string value => value
    | _ => none

instance : Saved Int32 where
  save value := .ofInt value.toInt
  ofPart? part := do
    let value ← part.json.integer?
    if Int32.minValue.toInt ≤ value ∧
      value ≤ Int32.maxValue.toInt then some (Int32.ofInt value)
    else none

instance : Saved UInt64 where
  save value := .ofNat value.toNat
  ofPart? part := do
    let value ← part.json.integer?
    if 0 ≤ value ∧
      value.toNat < UInt64.size then some (UInt64.ofNat value.toNat) else none

instance {α : Type} [Saved α] : Saved (List α) where
  save values := .array (values.map save)
  ofPart? part :=
    match part.json with
    | .array items => items.mapM fun item => ofPart? (part.inside item)
    | _ => none

instance {α : Type} [Saved α] : Saved (Option α) where
  save
    | none => .null
    | some value => save value
  ofPart? part :=
    match part.json with
    | .null => some none
    | _ => (ofPart? part).map some

end CircuitSections
