import CircuitSections.Rule.Basic
import CircuitSections.Save.Condition
import CircuitSections.Tracking.Ledger

/-!
# Saved rules and tracked sections

A multiplier that is not finite has no number in a document and is written as a
null, which is not read.
-/

namespace CircuitSections

instance : Saved Multiplier where
  save m :=
    match m.numeral? with
    | some numeral => .number numeral
    | none => .null
  ofPart? part :=
    match part.json with
    | .number numeral => Multiplier.ofNumeral? numeral
    | _ => none

instance : Saved SectionSpec where
  save spec :=
    .ofMembers
      [("group_name", save spec.name), ("multiplier", save spec.multiplier)]
  ofPart? part := do
    let fields ← part.fields? ["group_name", "multiplier"]
    return ⟨← fields.required "group_name", ← fields.required "multiplier"⟩

instance : Saved RuleAction where
  save
    | .inject => .ofString "inject"
    | .remove => .ofString "remove"
  ofPart? := Json.Part.choose? [("inject", .inject), ("remove", .remove)]

instance : Saved RuleConfig where
  save config :=
    .ofMembers
      [("conditions", save config.conditions), ("action", save config.action),
       ("section", save config.spec)]
  ofPart? part := do
    let fields ← part.fields? ["conditions", "action", "section"]
    return ⟨← fields.required "conditions", ← fields.required "action",
      ← fields.required "section"⟩

instance : Saved RuleId where
  save id := .ofString id.text
  ofPart? part := ofPart? part >>= RuleId.read?

instance : Saved RuleSnapshot where
  save snapshot :=
    .ofMembers ([("id", save snapshot.id), ("config", save snapshot.config),
        ("previous_result", save snapshot.previousResult)] ++
      match snapshot.lastFired with
      | none => []
      | some tick => [("last_fired_tick", save tick)])
  ofPart? part := do
    let fields ← part.fields?
      ["id", "config", "previous_result", "last_fired_tick"]
    return ⟨← fields.required "id", ← fields.required "config",
      ← fields.optional "previous_result" false,
      ← fields.optional "last_fired_tick" none⟩

instance : Saved TrackedSection where
  save entry :=
    .ofMembers [("target", save entry.target), ("spec", save entry.spec),
      ("owner", save entry.owner), ("handle", save entry.handle),
      ("injected_at", save entry.injectedAt)]
  ofPart? part := do
    let fields ← part.fields?
      ["target", "spec", "owner", "handle", "injected_at"]
    return ⟨← fields.required "target", ← fields.required "spec",
      ← fields.required "owner", ← fields.required "handle",
      ← fields.required "injected_at"⟩

end CircuitSections
