import CircuitSections.Proofs.Decimal.Exact
import CircuitSections.Proofs.Json.Text
import CircuitSections.Proofs.Save.Values

/-!
# Saves lose nothing

What is saved is read back as it was, up to the one thing that the format leaves
to rounding: a multiplier is written as its shortest decimal and read by a few
rounded steps.  Those with a short decimal come back as they were
(`Multiplier.IsShort.readsBack`), but there are finite ones that come back as a
neighbour.  So a value is read back when its multipliers are.  Nothing else
about it matters, neither its size nor the characters of its names.
-/

namespace CircuitSections

open Json Json.Part

/-- Types of values that hold multipliers. -/
class Weighted (α : Type) where
  multipliers : α → List Multiplier

export Weighted (multipliers)

instance : Weighted Multiplier := ⟨fun m => [m]⟩

instance : Weighted SectionSpec := ⟨fun spec => [spec.multiplier]⟩

instance : Weighted RuleConfig := ⟨fun config => multipliers config.spec⟩

instance : Weighted RuleSnapshot :=
  ⟨fun snapshot => multipliers snapshot.config⟩

instance : Weighted TrackedSection := ⟨fun entry => multipliers entry.spec⟩

instance : Weighted Limits := ⟨fun _ => []⟩

instance {α : Type} [Weighted α] : Weighted (List α) :=
  ⟨fun values => values.flatMap multipliers⟩

/-- Documents hold the values of the type, and those with finite multipliers
only. -/
structure Lossless (α : Type) [Saved α] [Weighted α] : Prop where
  restored : ∀ value : α, (∀ m ∈ multipliers value, m.ReadsBack) →
    Restored value
  finite : ∀ part (value : α), ofPart? part = some value →
    ∀ m ∈ multipliers value, m.isFinite = true

theorem Multiplier.save_of_numeral? {m : Multiplier} {numeral : Numeral}
    (written : m.numeral? = some numeral) : save m = .number numeral := by
  unfold save instSavedMultiplier
  dsimp only
  rw [written]

theorem Multiplier.save_of_none {m : Multiplier}
    (unwritten : m.numeral? = none) :
    save m = .null := by
  unfold save instSavedMultiplier
  dsimp only
  rw [unwritten]

theorem lossless_multiplier : Lossless Multiplier where
  restored m kept place := by
    have back : m.ReadsBack := kept m List.mem_cons_self
    obtain ⟨numeral, written, read⟩ := Option.bind_eq_some_iff.mp back
    rw [Multiplier.save_of_numeral? written]
    exact read
  finite part m read := by
    intro other listed
    cases List.mem_singleton.mp listed
    obtain ⟨place, json⟩ := part
    cases json with
    | number numeral => exact Multiplier.isFinite_of_ofNumeral? read
    | null | bool | string | array | object => cases read

theorem exists_of_required {α : Type} [Saved α] {fields : Fields}
    {name : String} {value : α} (found : fields.required name = some value) :
    ∃ part, ofPart? part = some value := by
  obtain ⟨part, _, read⟩ := Option.bind_eq_some_iff.mp found
  exact ⟨part, read⟩

theorem lossless_sectionSpec : Lossless SectionSpec where
  restored spec kept := by
    apply restored_sectionSpec
    exact lossless_multiplier.restored spec.multiplier kept
  finite part spec read := by
    obtain ⟨fields, _, read⟩ := Option.bind_eq_some_iff.mp read
    obtain ⟨name, _, read⟩ := Option.bind_eq_some_iff.mp read
    obtain ⟨multiplier, found, read⟩ := Option.bind_eq_some_iff.mp read
    cases read
    obtain ⟨inner, found⟩ := exists_of_required found
    exact lossless_multiplier.finite inner multiplier found

theorem lossless_ruleConfig : Lossless RuleConfig where
  restored config kept := by
    apply restored_ruleConfig
    exact lossless_multiplier.restored config.spec.multiplier kept
  finite part config read := by
    obtain ⟨fields, _, read⟩ := Option.bind_eq_some_iff.mp read
    obtain ⟨conditions, _, read⟩ := Option.bind_eq_some_iff.mp read
    obtain ⟨action, _, read⟩ := Option.bind_eq_some_iff.mp read
    obtain ⟨spec, found, read⟩ := Option.bind_eq_some_iff.mp read
    cases read
    obtain ⟨inner, found⟩ := exists_of_required found
    exact lossless_sectionSpec.finite inner spec found

theorem lossless_ruleSnapshot : Lossless RuleSnapshot where
  restored snapshot kept := by
    apply restored_ruleSnapshot
    exact lossless_multiplier.restored snapshot.config.spec.multiplier kept
  finite part snapshot read := by
    obtain ⟨fields, _, read⟩ := Option.bind_eq_some_iff.mp read
    obtain ⟨id, _, read⟩ := Option.bind_eq_some_iff.mp read
    obtain ⟨config, found, read⟩ := Option.bind_eq_some_iff.mp read
    obtain ⟨previousResult, _, read⟩ := Option.bind_eq_some_iff.mp read
    obtain ⟨lastFired, _, read⟩ := Option.bind_eq_some_iff.mp read
    cases read
    obtain ⟨inner, found⟩ := exists_of_required found
    exact lossless_ruleConfig.finite inner config found

theorem lossless_trackedSection : Lossless TrackedSection where
  restored entry kept := by
    apply restored_trackedSection
    exact lossless_multiplier.restored entry.spec.multiplier kept
  finite part entry read := by
    obtain ⟨fields, _, read⟩ := Option.bind_eq_some_iff.mp read
    obtain ⟨target, _, read⟩ := Option.bind_eq_some_iff.mp read
    obtain ⟨spec, found, read⟩ := Option.bind_eq_some_iff.mp read
    obtain ⟨owner, _, read⟩ := Option.bind_eq_some_iff.mp read
    obtain ⟨handle, _, read⟩ := Option.bind_eq_some_iff.mp read
    obtain ⟨injectedAt, _, read⟩ := Option.bind_eq_some_iff.mp read
    cases read
    obtain ⟨inner, found⟩ := exists_of_required found
    exact lossless_sectionSpec.finite inner spec found

theorem lossless_limits : Lossless Limits where
  restored limits _ := restored_limits limits
  finite _ _ _ _ listed := nomatch listed

theorem exists_of_mem_mapM {α β : Type} {read? : α → Option β} {inputs : List α}
    {outputs : List β} (read : inputs.mapM read? = some outputs) {output : β}
    (listed : output ∈ outputs) :
    ∃ input, read? input = some output := by
  induction inputs generalizing outputs with
  | nil =>
      cases read
      cases listed
  | cons first rest ih =>
      rw [List.mapM_cons] at read
      obtain ⟨head, found, read⟩ := Option.bind_eq_some_iff.mp read
      obtain ⟨tail, later, read⟩ := Option.bind_eq_some_iff.mp read
      cases read
      rcases List.mem_cons.mp listed with rfl | listed
      · exact ⟨first, found⟩
      · exact ih later listed

theorem lossless_list {α : Type} [Saved α] [Weighted α] (each : Lossless α) :
    Lossless (List α) where
  restored values kept := by
    apply restored_list
    intro value listed
    apply each.restored value
    intro m held
    exact kept m (List.mem_flatMap.mpr ⟨value, listed, held⟩)
  finite part values read := by
    intro m held
    obtain ⟨value, listed, held⟩ := List.mem_flatMap.mp held
    obtain ⟨place, json⟩ := part
    cases json with
    | array items =>
        obtain ⟨item, found⟩ := exists_of_mem_mapM read listed
        exact each.finite _ value found m held
    | null | bool | string | number | object => cases read

/-! ### Texts -/

/-- The text of a value is read, as that value, and its text is the same
again. -/
def ReturnsFromText {α : Type} [Saved α] (value : α) : Prop :=
  ∃ again, loadText? (saveText value) = some again ∧ again = value ∧
    saveText again = saveText value

theorem Restored.returnsFromText {α : Type} [Saved α] {value : α}
    (restored : Restored value) :
    ReturnsFromText value := by
  have back : loadText? (saveText value) = some value := by
    rw [loadText?, saveText, Json.read?_write]
    exact restored (.inOrder 0)
  exact ⟨value, back, rfl, rfl⟩

/-- Texts keep the values of the type: what is written is read back, and so is,
once it is written again, whatever is read.  The number layer is asked for the
finite multipliers of the value in hand only, since it does not return every
finite one.  Of those with a short decimal nothing has to be asked. -/
structure KeptByTexts (α : Type) [Saved α] [Weighted α] : Prop where
  written : ∀ value : α, (∀ m ∈ multipliers value, m.isFinite = true) →
    (∀ m ∈ multipliers value, m.isFinite = true → m.ReadsBack) →
      ReturnsFromText value
  accepted : ∀ text (value : α), loadText? text = some value →
    (∀ m ∈ multipliers value, m.isFinite = true → m.ReadsBack) →
      ReturnsFromText value
  short : ∀ value : α, (∀ m ∈ multipliers value, m.IsShort) →
    ReturnsFromText value

theorem Lossless.keptByTexts {α : Type} [Saved α] [Weighted α]
    (lossless : Lossless α) :
    KeptByTexts α := by
  have written (value : α) (finite : ∀ m ∈ multipliers value, m.isFinite = true)
      (kept : ∀ m ∈ multipliers value, m.isFinite = true → m.ReadsBack) :
      ReturnsFromText value := by
    apply Restored.returnsFromText
    apply lossless.restored value
    intro m held
    exact kept m held (finite m held)
  refine ⟨written, ?_, ?_⟩
  · intro text value read kept
    obtain ⟨document, _, loaded⟩ := Option.bind_eq_some_iff.mp read
    exact written value (lossless.finite _ value loaded) kept
  · intro value short
    exact written value (fun m held => (short m held).1) fun m held _ =>
      (short m held).readsBack

theorem Limits.ofText_saveText (limits : Limits) :
    Limits.ofText (saveText limits) = (Engine.accept limits.validate).map
      fun _ => limits := by
  obtain ⟨_, read, rfl, _⟩ := (restored_limits limits).returnsFromText
  rw [ofText, read]
  rfl

/-- Saves lose nothing. -/
theorem saves_lose_nothing :
    KeptByTexts RuleConfig ∧ KeptByTexts (List RuleConfig) ∧
      KeptByTexts RuleSnapshot ∧
      KeptByTexts TrackedSection ∧ KeptByTexts (List TrackedSection) ∧
        KeptByTexts Limits ∧
      ∀ limits : Limits,
        (limits.validate = .ok () →
          Limits.ofText (saveText limits) = .ok limits) ∧
        ∀ cause, limits.validate = .error cause →
          Limits.ofText (saveText limits) = .error (.validation cause) := by
  have limits (limits : Limits) :
      (limits.validate = .ok () →
        Limits.ofText (saveText limits) = .ok limits) ∧
      ∀ cause, limits.validate = .error cause →
        Limits.ofText (saveText limits) = .error (.validation cause) := by
    rw [Limits.ofText_saveText]
    constructor
    · intro valid
      rw [valid]
      rfl
    · intro cause invalid
      rw [invalid]
      rfl
  exact ⟨lossless_ruleConfig.keptByTexts,
    (lossless_list lossless_ruleConfig).keptByTexts,
    lossless_ruleSnapshot.keptByTexts, lossless_trackedSection.keptByTexts,
    (lossless_list lossless_trackedSection).keptByTexts,
    lossless_limits.keptByTexts, limits⟩

/-- A rule that has every kind of operand and of choice, with a section of
multiplier 0.1. -/
def wideRule : RuleConfig where
  conditions :=
    [⟨⟨.each, .red, false⟩, .lessOrEqual, .signal ⟨.each, .green, false⟩, none⟩,
      ⟨⟨.signal ⟨.fluid, "oil \"crude\"", "rare"⟩, .none, true⟩, .notEqual,
        .constant (-5), some .or⟩,
      ⟨⟨.everything, .both, false⟩, .greater,
        .signal ⟨.signal (.ofName .item "iron"), .both, false⟩, some .and⟩,
      ⟨⟨.anything, .both, false⟩, .equal, .constant 0, some .and⟩]
  action := .remove
  spec := ⟨"smelting", ⟨0x3FB999999999999A⟩⟩

theorem saves_lose_nothing_wideRule :
    ReturnsFromText wideRule ∧
      Limits.ofText (saveText (⟨0, 16⟩ : Limits)) =
        .error (.validation .noRulesAllowed) := by
  obtain ⟨configs, _, _, _, _, _, limits⟩ := saves_lose_nothing
  have held : ∀ m ∈ multipliers wideRule, m = ⟨0x3FB999999999999A⟩ := by
    intro m listed
    exact List.mem_singleton.mp listed
  constructor
  · apply configs.written wideRule
    · intro m listed
      rw [held m listed]
      decide
    · intro m listed _
      have short : (⟨0x3FB999999999999A⟩ : Multiplier).IsShort := by
        decide +kernel
      rw [held m listed]
      exact short.readsBack
  · exact (limits ⟨0, 16⟩).2 .noRulesAllowed rfl

end CircuitSections
