import CircuitSections.Engine
import CircuitSections.Save.Form

/-!
# Saved limits

Limits come as a JSON document in which each may be left out.
-/

namespace CircuitSections

instance : Saved Limits where
  save limits :=
    .ofMembers [("max_rules_per_combinator", save limits.rulesPerCombinator),
      ("max_conditions_per_rule", save limits.conditionsPerRule)]
  ofPart? part := do
    let fields ← part.fields?
      ["max_rules_per_combinator", "max_conditions_per_rule"]
    return ⟨← fields.optional "max_rules_per_combinator"
      Limits.default.rulesPerCombinator, ← fields.optional
        "max_conditions_per_rule" Limits.default.conditionsPerRule⟩

namespace Limits

/-- The limits that a text holds, if they can be worked with. -/
def ofText (text : String) : Except EngineError Limits :=
  match (loadText? text : Option Limits) with
  | none => .error (.validation .unreadableLimits)
  | some limits => do
    Engine.accept limits.validate
    return limits

/-- The limits that the bytes of a file hold; the file may be missing. -/
def ofFile (file : Option ByteArray) : Except EngineError Limits :=
  match file with
  | none => .error (.internal "failed to read the limits: there is no file")
  | some bytes =>
    match String.fromUTF8? bytes with
    | none =>
      .error (.internal "failed to read the limits: the file is not UTF-8 text")
    | some text => ofText text

end Limits

end CircuitSections
