import CircuitSections.Json.Tree

/-!
# Reading JSON

The reader is strict: no comments, no trailing commas, no needless zeros, no
byte-order mark, no raw control characters, and nothing but white space around
the document.  It recurs on fuel that the length of the text provides.
-/

namespace CircuitSections.Json

/-- White space between the parts of a document. -/
def isSpace (c : Char) : Bool := c = ' ' || c = '\t' || c = '\n' || c = '\r'

/-- A text without its leading white space. -/
def skip (text : List Char) : List Char := text.dropWhile isSpace

/-- The character that a one-letter escape stands for. -/
def unescape : Char → Option Char
  | '"' => some '"'
  | '\\' => some '\\'
  | '/' => some '/'
  | 'b' => some '\x08'
  | 'f' => some '\x0c'
  | 'n' => some '\n'
  | 'r' => some '\r'
  | 't' => some '\t'
  | _ => none

def isHighSurrogate (unit : Nat) : Bool := 0xD800 ≤ unit && unit < 0xDC00

def isLowSurrogate (unit : Nat) : Bool := 0xDC00 ≤ unit && unit < 0xE000

def pairChar (high low : Nat) : Char :=
  Char.ofNat (0x10000 + (high - 0xD800) * 0x400 + (low - 0xDC00))

/-- A character in front of what a text holds. -/
def consChar (c : Char) : Option (List Char) × List Char →
    Option (List Char) × List Char
  | (characters, rest) => (characters.map (c :: ·), rest)

/-- What a text holds, spoiled by half of a surrogate pair. -/
def spoil : Option (List Char) × List Char → Option (List Char) × List Char
  | (_, rest) => (none, rest)

/-- The characters of a text up to its closing quotation mark, and what follows.
They are absent if an escape names half of a surrogate pair. -/
def scanText : List Char → Option (Option (List Char) × List Char)
  | '"' :: rest => some (some [], rest)
  | '\\' :: 'u' :: a :: b :: c :: d :: rest =>
    match Digits.read? 16 [a, b, c, d] with
    | none => none
    | some unit =>
      if isHighSurrogate unit then
        match rest with
        | '\\' :: 'u' :: e :: f :: g :: h :: afterPair =>
          match Digits.read? 16 [e, f, g, h] with
          | none => none
          | some second =>
            if isLowSurrogate second then
              (scanText afterPair).map (consChar (pairChar unit second))
            else
              (scanText ('\\' :: 'u' :: e :: f :: g :: h :: afterPair)).map
                spoil
        | rest => (scanText rest).map spoil
      else if isLowSurrogate unit then (scanText rest).map spoil
      else (scanText rest).map (consChar (Char.ofNat unit))
  | '\\' :: c :: rest =>
    match unescape c with
    | none => none
    | some plain => (scanText rest).map (consChar plain)
  | c :: rest =>
    if c.toNat < 0x20 then none else (scanText rest).map (consChar c)
  | [] => none

/-- A text whose opening quotation mark has been read. -/
def scanString (text : List Char) : Option (Option String × List Char) :=
  (scanText text).map fun (characters, rest) =>
    (characters.map String.ofList, rest)

/-- A name at the start of a text, and what follows it. -/
def scanName (name : List Char) (value : Json) (text : List Char) :
    Option (Json × List Char) :=
  if name.isPrefixOf text then some (value, text.drop name.length) else none

mutual

/-- The value at the start of a text, and what follows it. -/
def scanValue : (fuel : Nat) → List Char → Option (Json × List Char)
  | 0, _ => none
  | fuel + 1, text =>
    match skip text with
    | '"' :: rest =>
      (scanString rest).map fun (value, rest) => (.string value, rest)
    | '[' :: rest =>
      match skip rest with
      | ']' :: rest => some (.array [], rest)
      | rest =>
        (scanItems fuel rest).map fun (items, rest) => (.array items, rest)
    | '\x7b' :: rest =>
      match skip rest with
      | '\x7d' :: rest => some (.object [], rest)
      | rest =>
        (scanMembers fuel rest).map fun (members, rest) =>
          (.object members, rest)
    | 'n' :: rest => scanName "ull".toList .null rest
    | 't' :: rest => scanName "rue".toList (.bool true) rest
    | 'f' :: rest => scanName "alse".toList (.bool false) rest
    | text => (Numeral.scan text).map fun (value, rest) => (.number value, rest)

/-- The items of an array up to its closing bracket; there is at least one. -/
def scanItems : (fuel : Nat) → List Char → Option (List Json × List Char)
  | 0, _ => none
  | fuel + 1, text =>
    match scanValue fuel text with
    | none => none
    | some (item, rest) =>
      match skip rest with
      | ']' :: rest => some ([item], rest)
      | ',' :: rest =>
        (scanItems fuel rest).map fun (items, rest) => (item :: items, rest)
      | _ => none

/-- The members of an object up to its closing brace; there is at least one. -/
def scanMembers : (fuel : Nat) → List Char →
    Option (List (Option String × Json) × List Char)
  | 0, _ => none
  | fuel + 1, text =>
    match skip text with
    | '"' :: rest =>
      match scanString rest with
      | none => none
      | some (name, rest) =>
        match skip rest with
        | ':' :: rest =>
          match scanValue fuel rest with
          | none => none
          | some (value, rest) =>
            match skip rest with
            | '\x7d' :: rest => some ([(name, value)], rest)
            | ',' :: rest =>
              (scanMembers fuel rest).map fun (members, rest) =>
                ((name, value) :: members, rest)
            | _ => none
        | _ => none
    | _ => none

end

/-- The document that a text spells.

A value is entered with one unit of fuel and its first character read, its first
item or member costs another, so twice the length suffices. -/
def read? (text : List Char) : Option Json :=
  match scanValue (2 * text.length + 1) text with
  | some (document, rest) => if skip rest = [] then some document else none
  | none => none

end CircuitSections.Json
