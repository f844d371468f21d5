import CircuitSections.Text.Digits

/-!
# Rule ids

Rules are known by UUIDs.  They are written in lower case with hyphens and read
also without hyphens, in braces, or as a URN.
-/

namespace CircuitSections

/-- The 128 bits of a UUID. -/
structure RuleId where
  bits : BitVec 128
  deriving DecidableEq

namespace RuleId

/-- The numbers of digits between the hyphens. -/
def groups : List Nat := [8, 4, 4, 4, 12]

/-- Digits with a hyphen between groups of the given widths. -/
def hyphenate : List Nat → List Char → List Char
  | [], _ => []
  | [width], digits => digits.take width
  | width :: next :: widths, digits =>
    digits.take width ++ '-' :: hyphenate (next :: widths) (digits.drop width)

/-- The digits of groups of the given widths with hyphens between them. -/
def unhyphenate? : List Nat → List Char → Option (List Char)
  | [], _ => none
  | [width], text => if text.length = width then some text else none
  | width :: next :: widths, text =>
    match text.drop width with
    | '-' :: rest =>
      (unhyphenate? (next :: widths) rest).map (text.take width ++ ·)
    | _ => none

def text (id : RuleId) : String :=
  String.ofList (hyphenate groups (Digits.fixed 16 32 id.bits.toNat))

/-- What stands in front of the hyphenated form in a URN, in any case. -/
def urnHead : List Char := "urn:uuid:".toList

/-- A hyphenated form without the braces or the URN head around it. -/
def unwrap (text : List Char) : List Char :=
  match text with
  | '\x7b' :: inner =>
    if inner.getLast? = some '\x7d' then inner.dropLast else text
  | _ =>
    if urnHead.isPrefixOf (text.map Char.toLower) then text.drop urnHead.length
      else text

/-- The thirty-two digits of an id, in one of the forms that are read. -/
def digits? (text : List Char) : Option (List Char) :=
  if text.length = 32 then some text else unhyphenate? groups (unwrap text)

def read? (text : String) : Option RuleId := do
  let digits ← digits? text.toList
  let value ← Digits.read? 16 digits
  return ⟨BitVec.ofNat 128 value⟩

/-- The id of the given number among those with random bits: version four, with
the number spread over the 122 free bits. -/
def numbered (n : Nat) : RuleId :=
  ⟨BitVec.ofNat 128
    ((n >>> 74 % 0x1000000000000) <<< 80 + 4 <<<
      76 + (n >>> 62 % 0x1000) <<< 64 +
      2 <<< 62 + n % 0x4000000000000000)⟩

end RuleId

/-- A supply of fresh rule ids. -/
structure RuleIdSupply where
  next : Nat
  deriving DecidableEq

namespace RuleIdSupply

/-- A fresh id, and the supply without it. -/
def draw (supply : RuleIdSupply) : RuleId × RuleIdSupply :=
  (.numbered supply.next, ⟨supply.next + 1⟩)

end RuleIdSupply

end CircuitSections
