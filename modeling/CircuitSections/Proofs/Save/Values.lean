import CircuitSections.Proofs.Rule.Id
import CircuitSections.Proofs.Save.Restored

/-!
# Saved values that are read back

Every signal, condition and limit is read back from its document, and so is
every rule and every tracked section whose multipliers are.
-/

namespace CircuitSections

open Json Json.Part

/-! ### Signals and conditions -/

theorem restored_signalKind (kind : SignalKind) : Restored kind := by
  intro place
  have found := choose?_ofString
    [("item", SignalKind.item), ("fluid", .fluid), ("virtual", .virtual)]
      place kind.text
  cases kind <;> exact found

theorem restored_signal (s : Signal) : Restored s := by
  apply restored_ofMembers (fun _ => rfl) rfl
  · show (["kind", "name", "quality"] : List String).Nodup
    decide
  · intro part
    rw [required_fieldsOf (restored_signalKind s.kind) rfl,
      required_fieldsOf (restored_string s.name) rfl,
      optional_fieldsOf (restored_string s.quality) rfl]
    rfl

theorem restored_channelFilter (filter : ChannelFilter) : Restored filter := by
  intro place
  cases filter <;> exact choose?_ofString _ place _

theorem restored_selector (selector : Selector) : Restored selector := by
  intro place
  have distinct : "type" ≠ "signal" := by decide
  cases selector with
  | signal s =>
      let part : Part := ⟨place, save (Selector.signal s)⟩
      have content : ofPart? (part.inside (save s)) = some s :=
        ofPart?_inside (restored_signal s)
      show tagged? "type" "signal" _
        ⟨place, ofMembers [("type", ofString "signal"), ("signal", save s)]⟩ = _
      rw [tagged?_holding distinct]
      exact congrArg (Option.map Selector.signal) content
  | each => exact tagged?_bare distinct _ place "each"
  | anything => exact tagged?_bare distinct _ place "anything"
  | everything => exact tagged?_bare distinct _ place "everything"

theorem restored_signalOperand (operand : SignalOperand) :
    Restored operand := by
  obtain ⟨selector, channels, anyQuality⟩ := operand
  cases anyQuality with
  | false =>
      apply restored_ofMembers (fun _ => rfl) rfl
      · show (["selector", "channels"] : List String).Nodup
        decide
      · intro part
        rw [required_fieldsOf (restored_selector selector) rfl,
          optional_fieldsOf (restored_channelFilter channels) rfl,
          optional_fieldsOf_absent rfl]
        rfl
  | true =>
      apply restored_ofMembers (fun _ => rfl) rfl
      · show (["selector", "channels", "any_quality"] : List String).Nodup
        decide
      · intro part
        rw [required_fieldsOf (restored_selector selector) rfl,
          optional_fieldsOf (restored_channelFilter channels) rfl,
          optional_fieldsOf (restored_bool true) rfl]
        rfl

theorem restored_operand (operand : Operand) : Restored operand := by
  intro place
  have distinct : "type" ≠ "value" := by decide
  cases operand with
  | constant value =>
      let part : Part := ⟨place, save (Operand.constant value)⟩
      have content : ofPart? (part.inside (save value)) = some value :=
        ofPart?_inside (restored_int32 value)
      show tagged? "type" "value" _
        ⟨place,
          ofMembers [("type", ofString "constant"), ("value", save value)]⟩ = _
      rw [tagged?_holding distinct]
      exact congrArg (Option.map Operand.constant) content
  | signal operand =>
      let part : Part := ⟨place, save (Operand.signal operand)⟩
      have content : ofPart? (part.inside (save operand)) = some operand :=
        ofPart?_inside (restored_signalOperand operand)
      show tagged? "type" "value" _
        ⟨place,
          ofMembers [("type", ofString "signal"), ("value", save operand)]⟩ = _
      rw [tagged?_holding distinct]
      exact congrArg (Option.map Operand.signal) content

theorem restored_comparator (comparator : Comparator) :
    Restored comparator := by
  intro place
  cases comparator <;> exact choose?_ofString _ place _

theorem restored_combineOp (op : CombineOp) : Restored op := by
  intro place
  cases op <;> exact choose?_ofString _ place _

theorem restored_condition (condition : Condition) : Restored condition := by
  obtain ⟨left, comparator, right, combine⟩ := condition
  cases combine with
  | none =>
      apply restored_ofMembers (fun _ => rfl) rfl
      · show (["left", "comparator", "right"] : List String).Nodup
        decide
      · intro part
        rw [required_fieldsOf (restored_signalOperand left) rfl,
          required_fieldsOf (restored_comparator comparator) rfl,
          required_fieldsOf (restored_operand right) rfl,
          optional_fieldsOf_absent rfl]
        rfl
  | some op =>
      have shown : save op ≠ .null := by cases op <;> exact nofun
      have combine : Restored (some op) :=
        restored_some (restored_combineOp op) shown
      apply restored_ofMembers (fun _ => rfl) rfl
      · show (["left", "comparator", "right", "combine"] : List String).Nodup
        decide
      · intro part
        rw [required_fieldsOf (restored_signalOperand left) rfl,
          required_fieldsOf (restored_comparator comparator) rfl,
          required_fieldsOf (restored_operand right) rfl,
          optional_fieldsOf combine rfl]
        rfl

/-! ### Sections and rules -/

theorem restored_ruleAction (action : RuleAction) : Restored action := by
  intro place
  cases action <;> exact choose?_ofString _ place _

theorem restored_ruleId (id : RuleId) : Restored id := by
  intro place
  have text := restored_string id.text place
  show ((ofPart? ⟨place, save id.text⟩ : Option String).bind RuleId.read?) =
    some id
  rw [text, Option.bind_some, RuleId.read?_text]

theorem restored_sectionSpec {spec : SectionSpec}
    (kept : Restored spec.multiplier) :
    Restored spec := by
  apply restored_ofMembers (fun _ => rfl) rfl
  · show (["group_name", "multiplier"] : List String).Nodup
    decide
  · intro part
    rw [required_fieldsOf (restored_string spec.name) rfl,
      required_fieldsOf kept rfl]
    rfl

theorem restored_ruleConfig {config : RuleConfig}
    (kept : Restored config.spec.multiplier) :
    Restored config := by
  have conditions : Restored config.conditions :=
    restored_list fun condition _ => restored_condition condition
  apply restored_ofMembers (fun _ => rfl) rfl
  · show (["conditions", "action", "section"] : List String).Nodup
    decide
  · intro part
    rw [required_fieldsOf conditions rfl,
      required_fieldsOf (restored_ruleAction config.action) rfl,
      required_fieldsOf (restored_sectionSpec kept) rfl]
    rfl

theorem restored_ruleSnapshot {snapshot : RuleSnapshot}
    (kept : Restored snapshot.config.spec.multiplier) : Restored snapshot := by
  obtain ⟨id, config, previousResult, lastFired⟩ := snapshot
  have config := restored_ruleConfig kept
  cases lastFired with
  | none =>
      apply restored_ofMembers (fun _ => rfl) rfl
      · show (["id", "config", "previous_result"] : List String).Nodup
        decide
      · intro part
        rw [required_fieldsOf (restored_ruleId id) rfl,
          required_fieldsOf config rfl, optional_fieldsOf
            (restored_bool previousResult) rfl, optional_fieldsOf_absent rfl]
        rfl
  | some tick =>
      have fired : Restored (some tick) :=
        restored_some (restored_uint64 tick) nofun
      apply restored_ofMembers (fun _ => rfl) rfl
      · show (["id", "config", "previous_result", "last_fired_tick"] :
          List String).Nodup
        decide
      · intro part
        rw [required_fieldsOf (restored_ruleId id) rfl,
          required_fieldsOf config rfl, optional_fieldsOf
            (restored_bool previousResult) rfl, optional_fieldsOf fired rfl]
        rfl

theorem restored_trackedSection {entry : TrackedSection}
    (kept : Restored entry.spec.multiplier) :
    Restored entry := by
  apply restored_ofMembers (fun _ => rfl) rfl
  · show (["target", "spec", "owner", "handle", "injected_at"] :
      List String).Nodup
    decide
  · intro part
    rw [required_fieldsOf (restored_entity entry.target) rfl,
      required_fieldsOf (restored_sectionSpec kept) rfl,
      required_fieldsOf (restored_entity entry.owner) rfl,
      required_fieldsOf (restored_entity entry.handle) rfl,
      required_fieldsOf (restored_uint64 entry.injectedAt) rfl]
    rfl

/-! ### Limits -/

theorem restored_limits (limits : Limits) : Restored limits := by
  apply restored_ofMembers (fun _ => rfl) rfl
  · show (["max_rules_per_combinator", "max_conditions_per_rule"] :
      List String).Nodup
    decide
  · intro part
    rw [optional_fieldsOf (restored_uint64 limits.rulesPerCombinator) rfl,
      optional_fieldsOf (restored_uint64 limits.conditionsPerRule) rfl]
    rfl

end CircuitSections
