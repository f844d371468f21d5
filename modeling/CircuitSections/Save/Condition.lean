import CircuitSections.Condition.Basic
import CircuitSections.Save.Circuit

/-!
# Saved conditions

A default filter is written out, while a quality sum that is off and an operator
that is absent are left out.  Three comparators have a second spelling that is
read and never written.
-/

namespace CircuitSections

instance : Saved Selector where
  save
    | .signal s => .ofMembers [("type", .ofString "signal"), ("signal", save s)]
    | .each => .ofMembers [("type", .ofString "each")]
    | .anything => .ofMembers [("type", .ofString "anything")]
    | .everything => .ofMembers [("type", .ofString "everything")]
  ofPart? := Json.Part.tagged? "type" "signal"
    [.holding "signal" .signal, .bare "each" .each, .bare "anything" .anything,
      .bare "everything" .everything]

instance : Saved SignalOperand where
  save operand :=
    .ofMembers
      ([("selector", save operand.selector),
      ("channels", save operand.channels)] ++
      if operand.anyQuality then [("any_quality", .bool true)] else [])
  ofPart? part := do
    let fields ← part.fields? ["selector", "channels", "any_quality"]
    return ⟨← fields.required "selector", ← fields.optional "channels" .both,
      ← fields.optional "any_quality" false⟩

instance : Saved Operand where
  save
    | .constant value =>
      .ofMembers [("type", .ofString "constant"), ("value", save value)]
    | .signal operand =>
      .ofMembers [("type", .ofString "signal"), ("value", save operand)]
  ofPart? := Json.Part.tagged? "type" "value"
    [.holding "constant" .constant, .holding "signal" .signal]

instance : Saved Comparator where
  save comparator := .ofString comparator.symbol
  ofPart? := Json.Part.choose? <|
    Comparator.all.map (fun comparator => (comparator.symbol, comparator)) ++
      [("!=", .notEqual), ("<=", .lessOrEqual), (">=", .greaterOrEqual)]

instance : Saved CombineOp where
  save
    | .and => .ofString "and"
    | .or => .ofString "or"
  ofPart? := Json.Part.choose? [("and", .and), ("or", .or)]

instance : Saved Condition where
  save condition :=
    .ofMembers
      ([("left", save condition.left),
      ("comparator", save condition.comparator),
      ("right", save condition.right)] ++
      match condition.combine with
      | none => []
      | some op => [("combine", save op)])
  ofPart? part := do
    let fields ← part.fields? ["left", "comparator", "right", "combine"]
    return ⟨← fields.required "left", ← fields.required "comparator",
      ← fields.required "right", ← fields.optional "combine" none⟩

end CircuitSections
