import CircuitSections.Proofs.Save.Lossless
import CircuitSections.Proofs.Save.Spelled

/-!
# Every spelling of a saved rule means the same

Older files and files written by hand leave out what a field says by itself,
write out what is usually left out, use the plain spellings of comparators,
order their keys as they like and carry keys of their own.  A rule is read from
all of these as it was, and written again as it had been, as long as its
multiplier is one that is read back and nothing in front of its tag is of a kind
that cannot be set aside.
-/

namespace CircuitSections

open Json Json.Part

/-! ### Shapes -/

def Signal.shape : Shape :=
  .object
    { known := ["kind", "name",
    "quality"], absent := [("quality", .ofString "normal")] }
    (.among [])

def Selector.shape : Shape := .tagged "type" "signal" Signal.shape

def SignalOperand.shape : Shape :=
  .object
    { known := ["selector", "channels", "any_quality"]
      absent := [("channels", .ofString "both"), ("any_quality", .bool false)] }
    (.among [("selector", Selector.shape)])

def Operand.shape : Shape := .tagged "type" "value" SignalOperand.shape

/-- The symbol that a spelling of a comparator stands for. -/
def Comparator.written : String → String
  | "!=" => "≠"
  | "<=" => "≤"
  | ">=" => "≥"
  | symbol => symbol

def Comparator.shape : Shape := .name Comparator.written

def Condition.shape : Shape :=
  .object
    { known := ["left", "comparator", "right",
    "combine"], absent := [("combine", .null)] }
    (.among [("left", SignalOperand.shape), ("comparator", Comparator.shape),
      ("right", Operand.shape)])

def SectionSpec.shape : Shape :=
  .object { known := ["group_name", "multiplier"] } (.among [])

def RuleConfig.shape : Shape :=
  .object { known := ["conditions", "action", "section"] }
    (.among
      [("conditions", .list Condition.shape), ("section", SectionSpec.shape)])

def RuleSnapshot.shape : Shape :=
  .object
    { known := ["id", "config", "previous_result", "last_fired_tick"]
      absent := [("previous_result", .bool false), ("last_fired_tick", .null)] }
    (.among [("config", RuleConfig.shape)])

/-! ### Conditions -/

theorem understood_signal (s : Signal) : Understood Signal.shape s True := by
  apply understood_record (fun _ => rfl) rfl
  · show (["kind", "name", "quality"] : List String).Nodup
    decide
  · rfl
  · exact List.nodup_nil
  · intro fields spelled
    have kind : fields.required "kind" = some s.kind :=
      (spelled "kind" (by decide)).plain (restored_signalKind s.kind)
    have name : fields.required "name" = some s.name :=
      (spelled "name" (by decide)).plain (restored_string s.name)
    have quality : fields.optional "quality" Signal.normal = some s.quality :=
      (spelled "quality" (by decide)).optional rfl (restored_string s.quality)
        (restored_string Signal.normal)
    rw [kind, name, quality]
    simp

theorem understood_selector (selector : Selector) :
    Understood Selector.shape selector True := by
  have distinct : "type" ≠ "signal" := by decide
  cases selector with
  | signal s =>
      exact understood_holding (fun _ => rfl) distinct rfl rfl
        (fun _ _ => Selector.signal.inj)
        (understood_signal s)
  | each => exact understood_bare (fun _ => rfl) distinct rfl rfl
  | anything => exact understood_bare (fun _ => rfl) distinct rfl rfl
  | everything => exact understood_bare (fun _ => rfl) distinct rfl rfl

theorem understood_signalOperand (operand : SignalOperand) :
    Understood SignalOperand.shape operand True := by
  apply understood_record (fun _ => rfl) rfl
  · cases operand.anyQuality <;> simp
  · rfl
  · exact List.nodup_singleton _
  · intro fields spelled
    have selector : fields.required "selector" = some operand.selector ↔
        True ∧ fields.CanWait "selector" Selector.shape :=
      (spelled "selector" (by decide)).required
        (understood_selector operand.selector)
    have channels : fields.optional "channels" .both = some operand.channels :=
      (spelled "channels" (by decide)).optional rfl
        (restored_channelFilter operand.channels)
        (restored_channelFilter .both)
    have anyQuality : fields.optional "any_quality" false =
        some operand.anyQuality := by
      refine (spelled "any_quality" (by decide)).optional ?_
        (restored_bool operand.anyQuality)
        (restored_bool false)
      cases operand.anyQuality <;> rfl
    rw [channels, anyQuality]
    obtain ⟨first, channels, anyQuality⟩ := operand
    simpa [Option.bind_eq_some_iff] using selector

theorem understood_atom {α : Type} [Saved α] {value : α} {keys : Keys}
    {inner : String → Shape} (restored : Restored value)
    (atom : ∀ members, save value ≠ .object members) :
    Understood (.object keys inner) value True := by
  rintro ⟨place, json⟩ agree
  rcases agree with same | ⟨members, _, object, _⟩
  · cases same
    refine iff_of_true (restored place) ⟨trivial, fun members object => ?_⟩
    exact absurd object (atom members)
  · exact absurd object (atom members)

theorem understood_operand (operand : Operand) :
    Understood Operand.shape operand True := by
  have distinct : "type" ≠ "value" := by decide
  cases operand with
  | constant value =>
      exact understood_holding (fun _ => rfl) distinct rfl rfl
        (fun _ _ => Operand.constant.inj)
        (understood_atom (restored_int32 value) nofun)
  | signal operand =>
      exact understood_holding (fun _ => rfl) distinct rfl rfl
        (fun _ _ => Operand.signal.inj)
        (understood_signalOperand operand)

theorem Comparator.ofPart?_written (place : Place) (spelling : String) :
    (ofPart? ⟨place, .ofString spelling⟩ : Option Comparator) =
      ofPart? ⟨place, .ofString (written spelling)⟩ := by
  unfold written
  split <;> rfl

theorem understood_comparator (comparator : Comparator) :
    Understood Comparator.shape comparator True := by
  rintro ⟨place, json⟩ agree
  refine iff_of_true ?_ ⟨trivial, trivial⟩
  rcases agree with same | ⟨symbol, other, saved, spelled, same⟩
  · cases same
    exact restored_comparator comparator place
  · obtain rfl : json = .ofString other := spelled
    rw [Comparator.ofPart?_written, same, ← Comparator.ofPart?_written, ← saved]
    exact restored_comparator comparator place

theorem restored_option {α : Type} [Saved α]
    (each : ∀ value : α, Restored value)
    (shown : ∀ value : α, save value ≠ .null) (value : Option α) :
      Restored value := by
  cases value with
  | none => exact fun _ => rfl
  | some value => exact restored_some (each value) (shown value)

theorem understood_condition (condition : Condition) :
    Understood Condition.shape condition True := by
  apply understood_record (fun _ => rfl) rfl
  · cases condition.combine <;> simp
  · rfl
  · show (["left", "comparator", "right"] : List String).Nodup
    decide
  · intro fields spelled
    have left : fields.required "left" = some condition.left ↔
        True ∧ fields.CanWait "left" SignalOperand.shape :=
      (spelled "left" (by decide)).required
        (understood_signalOperand condition.left)
    have comparator : fields.required "comparator" = some condition.comparator ↔
        True ∧ fields.CanWait "comparator" Comparator.shape :=
      (spelled "comparator" (by decide)).required
        (understood_comparator condition.comparator)
    have right : fields.required "right" = some condition.right ↔
        True ∧ fields.CanWait "right" Operand.shape :=
      (spelled "right" (by decide)).required
        (understood_operand condition.right)
    have combine : fields.optional "combine" none = some condition.combine := by
      have restored := restored_option restored_combineOp fun op => by
        cases op <;> exact nofun
      refine (spelled "combine" (by decide)).optional ?_
        (restored condition.combine)
        (restored none)
      cases condition.combine <;> rfl
    rw [combine]
    obtain ⟨first, symbol, second, combine⟩ := condition
    simp only [true_and] at left comparator right
    simp [Option.bind_eq_some_iff, ← left, ← comparator, ← right]

/-! ### Rules -/

theorem understood_multiplier (m : Multiplier) :
    Understood .plain m m.ReadsBack := by
  apply understood_plain
  intro place
  rw [Multiplier.ReadsBack]
  cases written : m.numeral? with
  | none =>
      rw [Multiplier.save_of_none written]
      exact Iff.rfl
  | some numeral =>
      rw [Multiplier.save_of_numeral? written]
      exact Iff.rfl

theorem understood_sectionSpec (spec : SectionSpec) :
    Understood SectionSpec.shape spec spec.multiplier.ReadsBack := by
  apply understood_record (fun _ => rfl) rfl
  · show (["group_name", "multiplier"] : List String).Nodup
    decide
  · rfl
  · exact List.nodup_nil
  · intro fields spelled
    have name : fields.required "group_name" = some spec.name :=
      (spelled "group_name" (by decide)).plain (restored_string spec.name)
    have multiplier : fields.required "multiplier" = some spec.multiplier ↔
        spec.multiplier.ReadsBack ∧ fields.CanWait "multiplier" .plain :=
      (spelled "multiplier" (by decide)).required
        (understood_multiplier spec.multiplier)
    have nothing : fields.CanWait "multiplier" .plain := fun _ _ => trivial
    rw [name]
    obtain ⟨group, m⟩ := spec
    simpa [Option.bind_eq_some_iff, nothing] using multiplier

theorem understood_ruleConfig (config : RuleConfig) :
    Understood RuleConfig.shape config config.spec.multiplier.ReadsBack := by
  have each : Understood (.list Condition.shape) config.conditions
      (∀ condition ∈ config.conditions, True) :=
    understood_list fun condition _ => understood_condition condition
  apply understood_record (fun _ => rfl) rfl
  · show (["conditions", "action", "section"] : List String).Nodup
    decide
  · rfl
  · show (["conditions", "section"] : List String).Nodup
    decide
  · intro fields spelled
    have conditions : fields.required "conditions" = some config.conditions ↔
        (∀ condition ∈ config.conditions, True) ∧
          fields.CanWait "conditions" (.list Condition.shape) :=
      (spelled "conditions" (by decide)).required each
    have action : fields.required "action" = some config.action :=
      (spelled "action" (by decide)).plain (restored_ruleAction config.action)
    have spec : fields.required "section" = some config.spec ↔
        config.spec.multiplier.ReadsBack ∧
          fields.CanWait "section" SectionSpec.shape :=
      (spelled "section" (by decide)).required
        (understood_sectionSpec config.spec)
    rw [action]
    obtain ⟨list, action, spec⟩ := config
    have both := and_congr conditions spec
    simp only [implies_true, true_and, and_left_comm] at both
    simpa [Option.bind_eq_some_iff] using both

theorem understood_ruleSnapshot (snapshot : RuleSnapshot) :
    Understood RuleSnapshot.shape snapshot
      snapshot.config.spec.multiplier.ReadsBack := by
  apply understood_record (fun _ => rfl) rfl
  · cases snapshot.lastFired <;> simp
  · rfl
  · exact List.nodup_singleton _
  · intro fields spelled
    have id : fields.required "id" = some snapshot.id :=
      (spelled "id" (by decide)).plain (restored_ruleId snapshot.id)
    have config : fields.required "config" = some snapshot.config ↔
        snapshot.config.spec.multiplier.ReadsBack ∧
          fields.CanWait "config" RuleConfig.shape :=
      (spelled "config" (by decide)).required
        (understood_ruleConfig snapshot.config)
    have previous : fields.optional "previous_result" false =
        some snapshot.previousResult :=
      (spelled "previous_result" (by decide)).optional rfl
        (restored_bool snapshot.previousResult)
        (restored_bool false)
    have fired : fields.optional "last_fired_tick" none =
        some snapshot.lastFired := by
      have restored := restored_option restored_uint64 fun _ => nofun
      refine (spelled "last_fired_tick" (by decide)).optional ?_
        (restored snapshot.lastFired)
        (restored none)
      cases snapshot.lastFired <;> rfl
    rw [id, previous, fired]
    obtain ⟨id, config, previous, fired⟩ := snapshot
    simpa [Option.bind_eq_some_iff] using config

/-! ### Texts -/

/-- The text is read as the value, whose own text is what is written again. -/
def ReadAs {α : Type} [Saved α] (text : String) (value : α) : Prop :=
  ∃ again, loadText? text = some again ∧ again = value ∧
    saveText again = saveText value

/-- Every text of a spelling is read as the value exactly when the value is one
that is kept and all that must wait can. -/
theorem Understood.readAs_iff {α : Type} [Saved α] {shape : Shape}
    {value : α} {kept : Prop} (understood : Understood shape value kept)
    {document : Json} {text : String}
    (spelling : shape.Spelling (save value) document)
    (spells : Json.read? text.toList = some document) :
    ReadAs text value ↔ kept ∧ shape.CanWait (.whole document) := by
  rw [← understood (.whole document) spelling.agree]
  have loaded : (loadText? text : Option α) = ofPart? (.whole document) := by
    rw [loadText?, spells]
    rfl
  rw [← loaded]
  constructor
  · rintro ⟨_, read, rfl, _⟩
    exact read
  · intro read
    exact ⟨value, read, rfl, rfl⟩

/-- Every spelling of a saved rule means the same, as long as its multipliers
are read back and what stands in front of the tag that tells how to read it can
be set aside. -/
theorem spellings_keep_meaning :
    (∀ (configs : List RuleConfig) (document : Json) (text : String),
      Shape.Spelling (.list RuleConfig.shape) (save configs) document →
      Json.read? text.toList = some document →
      (ReadAs text configs ↔ (∀ m ∈ multipliers configs, m.ReadsBack) ∧
        Shape.CanWait (.list RuleConfig.shape) (.whole document))) ∧
    ∀ (snapshot : RuleSnapshot) (document : Json) (text : String),
      RuleSnapshot.shape.Spelling (save snapshot) document →
      Json.read? text.toList = some document →
      (ReadAs text snapshot ↔ (∀ m ∈ multipliers snapshot, m.ReadsBack) ∧
        RuleSnapshot.shape.CanWait (.whole document)) := by
  constructor
  · intro configs document text spelling spells
    have understood : Understood (.list RuleConfig.shape) configs
        (∀ config ∈ configs, config.spec.multiplier.ReadsBack) :=
      understood_list fun config _ => understood_ruleConfig config
    have held : (∀ m ∈ multipliers configs, m.ReadsBack) ↔
        ∀ config ∈ configs, config.spec.multiplier.ReadsBack := by
      have each : multipliers configs = configs.map fun config =>
          config.spec.multiplier :=
        List.flatMap_pure_eq_map _ _
      rw [each, List.forall_mem_map]
    rw [held]
    exact understood.readAs_iff spelling spells
  · intro snapshot document text spelling spells
    have held : (∀ m ∈ multipliers snapshot, m.ReadsBack) ↔
        snapshot.config.spec.multiplier.ReadsBack := by
      simp [multipliers]
    rw [held]
    exact (understood_ruleSnapshot snapshot).readAs_iff spelling spells

/-! ### A rule in another spelling -/

/-- A rule that compares iron with a constant. -/
def ironWatch : RuleConfig where
  conditions :=
    [⟨⟨.signal (.ofName .item "iron"), .both, false⟩, .notEqual,
      .constant 5, none⟩]
  action := .inject
  spec := ⟨"smelting", ⟨0x3FB999999999999A⟩⟩

/-- Iron with a note, and without its quality. -/
def notedIron (note : Json) : Json :=
  .object [(some "note", note), (some "kind", .ofString "item"),
    (some "name", .ofString "iron")]

/-- The operand with the note in front of the tag. -/
def notedOperand (note : Json) : Json :=
  .object [(some "any_quality", .bool false),
    (some "selector",
      .object
        [(some "signal", notedIron note), (some "type", .ofString "signal")])]

/-- The rule with the note, in another spelling throughout. -/
def notedWatch (note : Json) : Json :=
  .object [(some "conditions", .array [.object [(some "combine", .null),
      (some "left", notedOperand note), (some "comparator", .ofString "!="),
      (some "right", save (Operand.constant 5))]]),
    (some "action", .ofString "inject"), (some "section", save ironWatch.spec)]

theorem notedOperand_spelling (note : Json) :
    SignalOperand.shape.Spelling
      (save (⟨.signal (.ofName .item "iron"), .both, false⟩ : SignalOperand))
      (notedOperand note) := by
  have bare : Signal.shape.Change (save (Signal.ofName .item "iron"))
      (.object
        [(some "kind", .ofString "item"), (some "name", .ofString "iron")]) :=
    .leaveOut [(some "kind", .ofString "item"), (some "name", .ofString "iron")]
      [] rfl
  have noted : Signal.shape.Spelling (save (Signal.ofName .item "iron"))
      (notedIron note) :=
    .tail (.single bare) (.add note _ (by decide))
  have inside :
      Selector.shape.Spelling (save (Selector.signal (.ofName .item "iron")))
      (.object
        [(some "type", .ofString "signal"), (some "signal", notedIron note)]) :=
    noted.inside [(some "type", .ofString "signal")] [] rfl
  have turned :
      Selector.shape.Spelling (save (Selector.signal (.ofName .item "iron")))
      (.object
        [(some "signal", notedIron note), (some "type", .ofString "signal")]) :=
    inside.tail (.reorder (.swap _ _ _))
  have selected : SignalOperand.shape.Spelling
      (save (⟨.signal (.ofName .item "iron"), .both, false⟩ : SignalOperand))
      (.object [(some "selector",
          .object [(some "signal", notedIron note),
            (some "type", .ofString "signal")]),
        (some "channels", .ofString "both")]) :=
    turned.inside [] [(some "channels", .ofString "both")] rfl
  exact (selected.tail (.leaveOut [(some "selector", _)] [] rfl)).tail
    (.spellOut rfl rfl)

theorem notedWatch_spelling (note : Json) :
    RuleConfig.shape.Spelling (save ironWatch) (notedWatch note) := by
  let right : Json := save (Operand.constant 5)
  have left :
      Condition.shape.Spelling
        (.object [(some "left", save ironWatch.conditions[0].left),
        (some "comparator", .ofString "≠"), (some "right", right)])
      (.object
        [(some "left", notedOperand note), (some "comparator", .ofString "≠"),
         (some "right", right)]) :=
    (notedOperand_spelling note).inside []
      [(some "comparator", .ofString "≠"), (some "right", right)]
      rfl
  have symbol : Comparator.shape.Spelling (.ofString "≠") (.ofString "!=") :=
    .single (.respell rfl)
  have condition : Condition.shape.Spelling (save ironWatch.conditions[0])
      (.object [(some "combine", .null), (some "left", notedOperand note),
        (some "comparator", .ofString "!="), (some "right", right)]) :=
    (left.trans
      (symbol.inside [(some "left", notedOperand note)]
        [(some "right", right)] rfl)).tail
      (.spellOut rfl rfl)
  exact (condition.item [] []).inside []
    [(some "action", .ofString "inject"), (some "section", save ironWatch.spec)]
      rfl

theorem bareSnapshot_spelling (id : RuleId) {config : RuleConfig}
    {document : Json}
    (spelling : RuleConfig.shape.Spelling (save config) document) :
    RuleSnapshot.shape.Spelling
      (save (⟨id, config, false, none⟩ : RuleSnapshot))
      (.object [(some "last_fired_tick", .null), (some "id", save id),
        (some "config", document)]) := by
  have inside :
      RuleSnapshot.shape.Spelling
        (save (⟨id, config, false, none⟩ : RuleSnapshot))
      (.object [(some "id", save id), (some "config", document),
        (some "previous_result", .bool false)]) :=
    spelling.inside [(some "id", save id)]
      [(some "previous_result", .bool false)] rfl
  exact (inside.tail
    (.leaveOut [(some "id", save id), (some "config", document)] [] rfl)).tail
    (.spellOut rfl rfl)

/-- Both are read as they were with a short note. -/
theorem spellings_keep_meaning_noted :
    ReadAs (Json.array [notedWatch (.ofNat 1)]).write [ironWatch] ∧
      ReadAs
        (Json.object
          [(some "last_fired_tick", .null), (some "id", save (⟨7⟩ : RuleId)),
            (some "config", notedWatch (.ofNat 1))]).write
        (⟨⟨7⟩, ironWatch, false, none⟩ : RuleSnapshot) := by
  obtain ⟨lists, snapshots⟩ := spellings_keep_meaning
  have short : (⟨0x3FB999999999999A⟩ : Multiplier).IsShort := by decide +kernel
  constructor
  · have spelling := (notedWatch_spelling (.ofNat 1)).item [] []
    apply (lists [ironWatch] _ _ spelling (Json.read?_write _)).mpr
    refine ⟨fun m listed => ?_, Shape.canWait_of_isSound _ (by decide +kernel)⟩
    rw [List.mem_singleton.mp listed]
    exact short.readsBack
  · have spelling := bareSnapshot_spelling ⟨7⟩ (notedWatch_spelling (.ofNat 1))
    apply (snapshots _ _ _ spelling (Json.read?_write _)).mpr
    refine ⟨fun m listed => ?_, Shape.canWait_of_isSound _ (by decide +kernel)⟩
    rw [List.mem_singleton.mp listed]
    exact short.readsBack

/-- A rule whose multiplier comes back as its neighbour. -/
def driftingRule : RuleConfig := ⟨[], .inject, ⟨"iron", ⟨0x406E800015E15BD4⟩⟩⟩

/-- A multiplier may be finite and yet come back as its neighbour; and a number
beyond the greatest multiplier, which is skipped elsewhere, is not read where it
has to wait. -/
theorem spellings_lost :
    driftingRule.spec.multiplier.isFinite = true ∧
      ¬ ReadAs (saveText [driftingRule]) [driftingRule] ∧
      ironWatch.spec.multiplier.isFinite = true ∧
      Shape.Spelling (.list RuleConfig.shape) (save [ironWatch])
        (.array [notedWatch (.number ⟨false, 1, 0, some 999⟩)]) ∧
      (loadText?
        (Json.array [notedWatch (.number ⟨false, 1, 0, some 999⟩)]).write :
        Option (List RuleConfig)) = none := by
  refine ⟨by decide +kernel, ?_, by decide +kernel,
    (notedWatch_spelling _).item [] [], ?_⟩
  · have understood :=
      understood_list fun config (_ : config ∈ [driftingRule]) =>
        understood_ruleConfig config
    have drifts : ¬ (⟨0x406E800015E15BD4⟩ : Multiplier).ReadsBack := by
      rw [Multiplier.ReadsBack]
      decide +kernel
    intro read
    have kept := ((understood.readAs_iff .refl (Json.read?_write _)).mp read).1
    exact drifts (kept driftingRule List.mem_cons_self)
  · rw [loadText?, Json.read?_write]
    rfl

end CircuitSections
