import CircuitSections.Json.Tree

/-!
# Writing JSON

Documents are written without white space.  In a text only the quotation mark,
the backslash and the characters below the space are escaped.
-/

namespace CircuitSections.Json

/-- A character as it stands in a text. -/
def escape (c : Char) : List Char :=
  match c with
  | '"' => ['\\', '"']
  | '\\' => ['\\', '\\']
  | '\x08' => ['\\', 'b']
  | '\t' => ['\\', 't']
  | '\n' => ['\\', 'n']
  | '\x0c' => ['\\', 'f']
  | '\r' => ['\\', 'r']
  | c =>
    if c.toNat < 0x20 then '\\' :: 'u' :: Digits.fixed 16 4 c.toNat else [c]

/-- A text in quotation marks.  One that is no string is written as half of a
surrogate pair. -/
def quote : Option String → List Char
  | some value => '"' :: value.toList.flatMap escape ++ ['"']
  | none => "\"\\ud800\"".toList

mutual

def render : Json → List Char
  | .null => "null".toList
  | .bool true => "true".toList
  | .bool false => "false".toList
  | .number value => value.text
  | .string value => quote value
  | .array items => '[' :: renderItems items
  | .object members => '\x7b' :: renderMembers members

def renderItems : List Json → List Char
  | [] => [']']
  | [item] => render item ++ [']']
  | item :: next :: items => render item ++ ',' :: renderItems (next :: items)

def renderMembers : List (Option String × Json) → List Char
  | [] => ['\x7d']
  | [(name, value)] => quote name ++ ':' :: render value ++ ['\x7d']
  | (name, value) :: next :: members =>
    quote name ++ ':' :: render value ++ ',' :: renderMembers (next :: members)

end

def write (document : Json) : String := String.ofList document.render

end CircuitSections.Json
