import CircuitSections.Proofs.Decimal.Numeral
import CircuitSections.Save.Limits
import CircuitSections.Save.Rule
import Mathlib.Data.List.Nodup

/-!
# Values that are read back from their documents

A saved value is read back wherever its document stands: in order, or in what
has been set aside.  A record is read back when its fields are, whatever the
order of its members, and a field that was left out when its value is the one
that stands for an absent field.  All that a value needs is that its multipliers
are read back (`Multiplier.ReadsBack`).
-/

namespace CircuitSections

/-- The value is read from its document, wherever that stands. -/
def Restored {α : Type} [Saved α] (value : α) : Prop :=
  ∀ place, ofPart? ⟨place, save value⟩ = some value

namespace Json

theorem member?_map (members : List (String × Json)) (name : String) :
    member? (members.map fun (key, value) => (some key, value)) name =
      members.lookup name := by
  induction members with
  | nil => rfl
  | cons member rest ih =>
      obtain ⟨key, value⟩ := member
      by_cases same : key = name
      · subst same
        simp [member?]
      · have other : (name == key) = false := by simpa using Ne.symm same
        simp only [List.lookup_cons, other, ← ih]
        simp [member?, same]

theorem keysAreSound_map (names : List String) {members : List (String × Json)}
    (nodup : (members.map Prod.fst).Nodup) :
    keysAreSound names (members.map fun (key, value) => (some key, value)) =
      true := by
  have once (name : String) :
      ((members.map fun (key, value) => (some key, value)).filter fun member =>
        member.1 = some name).length ≤ 1 := by
    have count : (members.map Prod.fst).count name ≤ 1 :=
      List.nodup_iff_count_le_one.mp nodup name
    rw [List.count, List.countP_map] at count
    rw [← List.countP_eq_length_filter, List.countP_map]
    simpa [Function.comp_def, beq_eq_decide] using count
  simp only [keysAreSound, Bool.and_eq_true, List.all_eq_true]
  constructor
  · intro member listed
    obtain ⟨⟨key, value⟩, _, rfl⟩ := List.mem_map.mp listed
    rfl
  · intro name _
    simpa using once name

namespace Part

/-- The fields that are found under their names among the members of an
object. -/
def fieldsOf (part : Part) (members : List (String × Json)) : Fields :=
  fun name => (members.lookup name).map part.inside

theorem fields?_ofMembers (names : List String) {members : List (String × Json)}
    (nodup : (members.map Prod.fst).Nodup) (place : Place) :
    fields? names ⟨place, ofMembers members⟩ =
      some (fieldsOf ⟨place, ofMembers members⟩ members) := by
  have sound := keysAreSound_map names nodup
  simp only [fields?, ofMembers, sound, if_true, member?_map]
  rfl

variable {α : Type} [Saved α] {part : Part} {members : List (String × Json)}
  {name : String}
  {value : α}

theorem ofPart?_inside (restored : Restored value) :
    ofPart? (part.inside (save value)) = some value := by
  unfold inside
  split
  next depth _ => exact restored (.inOrder (depth + 1))
  next => exact restored .setAside

theorem required_fieldsOf (restored : Restored value)
    (found : members.lookup name = some (save value)) :
    (fieldsOf part members).required name = some value := by
  rw [Fields.required, fieldsOf, found]
  exact ofPart?_inside restored

theorem optional_fieldsOf (restored : Restored value) {absent : α}
    (found : members.lookup name = some (save value)) :
    (fieldsOf part members).optional name absent = some value := by
  simp only [Fields.optional, fieldsOf, found, Option.map_some]
  exact ofPart?_inside restored

theorem optional_fieldsOf_absent {absent : α}
    (missing : members.lookup name = none) :
    (fieldsOf part members).optional name absent = some absent := by
  simp only [Fields.optional, fieldsOf, missing, Option.map_none]

end Part

/-! ### Choices -/

namespace Part

variable {α : Type}

theorem name?_ofString (place : Place) (name : String) :
    name? ⟨place, ofString name⟩ = some name := by
  cases place <;> rfl

theorem choose?_ofString (choices : List (String × α)) (place : Place)
    (name : String) :
    choose? choices ⟨place, ofString name⟩ = choices.lookup name := by
  rw [choose?, name?_ofString]
  rfl

theorem inside_eq (part : Part) (json : Json) : ∃ place, part.inside json =
    ⟨place, json⟩ := by
  unfold inside
  split <;> exact ⟨_, rfl⟩

theorem tagged?_bare {tag content : String} (distinct : tag ≠ content)
    (cases : List (Case α)) (place : Place) (name : String) :
    tagged? tag content cases ⟨place, ofMembers [(tag, ofString name)]⟩ =
      (caseOf? cases name).bind fun case => case.ofContent? none := by
  have alone : ([(tag, ofString name)].map Prod.fst).Nodup := by simp
  have sound := keysAreSound_map [tag, content] alone
  have other : (content == tag) = false := by simpa using Ne.symm distinct
  obtain ⟨inner, within⟩ :=
    inside_eq ⟨place, ofMembers [(tag, ofString name)]⟩ (ofString name)
  rw [ofMembers] at within ⊢
  simp only [tagged?, sound, if_true, member?_map, List.lookup_cons,
    List.lookup_nil, other, beq_self_eq_true, Option.map_some, Option.map_none,
    Option.bind_eq_bind, Option.bind_some,
    within, name?_ofString]

theorem tagged?_holding {tag content : String} (distinct : tag ≠ content)
    (cases : List (Case α)) (place : Place) (name : String) (held : Json) :
    tagged? tag content
      cases ⟨place, ofMembers [(tag, ofString name), (content, held)]⟩ =
        (caseOf? cases name).bind fun case => case.ofContent? (some
          (inside ⟨place, ofMembers [(tag, ofString name), (content, held)]⟩
            held)) := by
  let members := [(tag, ofString name), (content, held)]
  have apart : (members.map Prod.fst).Nodup := by simpa [members] using distinct
  have sound := keysAreSound_map [tag, content] apart
  have other : (content == tag) = false := by simpa using Ne.symm distinct
  obtain ⟨inner, within⟩ := inside_eq ⟨place, ofMembers members⟩ (ofString name)
  rw [ofMembers] at within ⊢
  simp only [tagged?, sound, members, if_true, member?_map,
    List.lookup_cons, other, beq_self_eq_true, Option.map_some,
    Option.bind_eq_bind, Option.bind_some, within,
    name?_ofString]
  -- The tag is in front, so nothing is set aside.
  simp [leads, distinct]

end Part

end Json

/-! ### Plain values -/

open Json Json.Part

theorem restored_bool (value : Bool) : Restored value := fun _ => rfl

theorem restored_string (value : String) : Restored value := fun _ => rfl

theorem restored_int32 (value : Int32) : Restored value := by
  intro place
  have spelled : (Json.ofInt value.toInt).integer? = some value.toInt :=
    Numeral.integer?_ofInt value.toInt
  have within : Int32.minValue.toInt ≤ value.toInt ∧
      value.toInt ≤ Int32.maxValue.toInt :=
    ⟨Int32.minValue_le_toInt value, Int32.toInt_le value⟩
  show ((Json.ofInt value.toInt).integer?.bind fun n =>
    if Int32.minValue.toInt ≤ n ∧
      n ≤ Int32.maxValue.toInt then some (Int32.ofInt n) else none) =
        some value
  rw [spelled, Option.bind_some, if_pos within, Int32.ofInt_toInt]

theorem restored_uint64 (value : UInt64) : Restored value := by
  intro place
  have spelled : (Json.ofNat value.toNat).integer? = some (value.toNat : Int) :=
    Numeral.integer?_ofNat value.toNat
  have within : 0 ≤ (value.toNat : Int) ∧
      (value.toNat : Int).toNat < UInt64.size :=
    ⟨Int.natCast_nonneg _, value.toNat_lt⟩
  show ((Json.ofNat value.toNat).integer?.bind fun n =>
    if 0 ≤ n ∧ n.toNat < UInt64.size then some (UInt64.ofNat n.toNat)
      else none) = some value
  rw [spelled, Option.bind_some, if_pos within, Int.toNat_natCast,
    UInt64.ofNat_toNat]

theorem restored_entity {kind : EntityKind} (id : EntityId kind) :
    Restored id := by
  intro place
  have number := restored_uint64 id.number place
  show (ofPart? ⟨place, save id.number⟩).map EntityId.mk = some id
  rw [number]
  rfl

theorem restored_list {α : Type} [Saved α] {values : List α}
    (each : ∀ value ∈ values, Restored value) : Restored values := by
  intro place
  have items (part : Part) (rest : List α)
      (listed : ∀ value ∈ rest, Restored value) :
      (rest.map save).mapM (fun item => ofPart? (part.inside item)) =
        some rest := by
    induction rest with
    | nil => rfl
    | cons first rest ih =>
        obtain ⟨head, tail⟩ := List.forall_mem_cons.mp listed
        rw [List.map_cons, List.mapM_cons, ofPart?_inside head, ih tail]
        rfl
  exact items ⟨place, save values⟩ values each

theorem restored_some {α : Type} [Saved α] {value : α}
    (restored : Restored value) (shown : save value ≠ .null) :
    Restored (some value) := by
  intro place
  have inner := restored place
  have same : save (some value) = save value := rfl
  rw [same]
  cases document : save value with
  | null => exact absurd document shown
  | bool | number | string | array | object =>
      rw [document] at inner
      exact congrArg (Option.map some) inner

/-- A record is read back when each of its fields is found under its name. -/
theorem restored_ofMembers {α : Type} [Saved α] {value : α}
    {names : List String} {members : List (String × Json)}
    {build : Fields → Option α}
    (reading : ∀ part, (ofPart? part : Option α) =
      (part.fields? names).bind build)
    (written : save value = ofMembers members)
    (nodup : (members.map Prod.fst).Nodup)
    (built : ∀ part, build (fieldsOf part members) = some value) :
      Restored value := by
  intro place
  rw [written, reading, fields?_ofMembers names nodup, Option.bind_some]
  exact built _

end CircuitSections
