import CircuitSections.Circuit.Channel
import CircuitSections.Circuit.Entity
import CircuitSections.Save.Form

/-!
# Saved signals, channels and entities
-/

namespace CircuitSections

instance : Saved SignalKind where
  save kind := .ofString kind.text
  ofPart? :=
    Json.Part.choose?
      [("item", .item), ("fluid", .fluid), ("virtual", .virtual)]

instance : Saved Signal where
  save s :=
    .ofMembers [("kind", save s.kind), ("name", save s.name),
      ("quality", save s.quality)]
  ofPart? part := do
    let fields ← part.fields? ["kind", "name", "quality"]
    return ⟨← fields.required "kind", ← fields.required "name",
      ← fields.optional "quality" Signal.normal⟩

instance : Saved BaseSignal where
  save base := .ofMembers [("kind", save base.kind), ("name", save base.name)]
  ofPart? part := do
    let fields ← part.fields? ["kind", "name"]
    return ⟨← fields.required "kind", ← fields.required "name"⟩

instance : Saved Channel where
  save
    | .red => .ofString "red"
    | .green => .ofString "green"
  ofPart? := Json.Part.choose? [("red", .red), ("green", .green)]

instance : Saved ChannelFilter where
  save
    | .red => .ofString "red"
    | .green => .ofString "green"
    | .both => .ofString "both"
    | .none => .ofString "none"
  ofPart? :=
    Json.Part.choose?
      [("red", .red), ("green", .green), ("both", .both), ("none", .none)]

instance {kind : EntityKind} : Saved (EntityId kind) where
  save id := save id.number
  ofPart? part := (ofPart? part).map EntityId.mk

end CircuitSections
