import CircuitSections.Proofs.Json.Spelling
import CircuitSections.Proofs.Save.Values

/-!
# Values that are read from all their spellings

The shapes of saved values: which names they know, what an absent member stands
for, and where a name has a second spelling.  A value is understood when it is
read from every document that agrees with its own (`Understood`); a record is
when its fields are, and a choice when its content is.  One thing is asked of
the document: what stands in front of the tag that tells how to read it must be
something that can be set aside (`CanWait`).
-/

namespace CircuitSections

open Json Json.Part

namespace Json

theorem Part.inside_json (part : Part) (json : Json) :
    (part.inside json).json = json := by
  obtain ⟨_, within⟩ := inside_eq part json
  rw [within]

theorem Part.map_inside_json (part : Part) (found : Option Json) :
    (found.map part.inside).map Part.json = found := by
  cases found with
  | none => rfl
  | some json => exact congrArg some (part.inside_json json)

/-- Whether a member stands in front of the tag that tells how to read it. -/
def Keys.waits (keys : Keys) (members : List (Option String × Json))
    (name : String) : Bool :=
  keys.choice.any fun (tag, content) =>
    content = name && leads content tag members

namespace Shape

/-- All that must wait in a part for its tag can be set aside. -/
def CanWait : Shape → Part → Prop
  | plain, _ => True
  | name _, _ => True
  | list item, part =>
    ∀ items, part.json = .array items → ∀ value ∈ items,
      CanWait item (part.inside value)
  | object keys inner, part =>
    ∀ members, part.json = .object members → ∀ name value,
      member? members name = some value →
      (keys.waits members name = true →
        (part.inside value).setAside?.isSome = true) ∧
      (keys.waits members name = false →
        CanWait (inner name) (part.inside value))

theorem canWait_setAside (shape : Shape) (json : Json) :
    CanWait shape ⟨.setAside, json⟩ := by
  induction shape generalizing json with
  | plain => trivial
  | name => trivial
  | list item ih => exact fun _ _ value _ => ih value
  | object keys inner ih =>
      intro members _ name value _
      exact ⟨fun _ => rfl, fun _ => ih name value⟩

theorem itemsAreSound_mem {room : Nat} {items : List Json}
    (sound : itemsAreSound room items = true) {value : Json}
    (listed : value ∈ items) : value.isSound room = true := by
  induction items with
  | nil => cases listed
  | cons first rest ih =>
      rw [itemsAreSound, Bool.and_eq_true] at sound
      rcases List.mem_cons.mp listed with rfl | later
      · exact sound.1
      · exact ih sound.2 later

theorem membersAreSound_mem {room : Nat} {members : List (Option String × Json)}
    (sound : membersAreSound room members = true)
    {name : Option String} {value : Json} (listed : (name, value) ∈ members) :
    value.isSound room = true := by
  induction members with
  | nil => cases listed
  | cons first rest ih =>
      rw [membersAreSound, Bool.and_eq_true, Bool.and_eq_true] at sound
      rcases List.mem_cons.mp listed with rfl | later
      · exact sound.1.2
      · exact ih sound.2 later

theorem mem_of_member? {members : List (Option String × Json)}
    {name : String} {value : Json} (found : member? members name = some value) :
    ∃ key, (key, value) ∈ members := by
  obtain ⟨member, first, rfl⟩ := Option.map_eq_some_iff.mp found
  exact ⟨member.1, List.mem_of_find?_eq_some first⟩

/-- Where every number is finite, every text a string and nothing nested too
deeply, whatever must wait can. -/
theorem canWait_of_isSound (shape : Shape) {depth : Nat} {json : Json}
    (sound : json.isSound (greatestDepth - depth) = true) :
    CanWait shape ⟨.inOrder depth, json⟩ := by
  induction shape generalizing depth json with
  | plain => trivial
  | name => trivial
  | list item ih =>
      rintro items rfl value listed
      rw [isSound, Bool.and_eq_true] at sound
      exact ih (itemsAreSound_mem sound.2 listed)
  | object keys inner ih =>
      rintro members rfl name value found
      rw [isSound, Bool.and_eq_true] at sound
      obtain ⟨key, listed⟩ := mem_of_member? found
      have within : value.isSound (greatestDepth - (depth + 1)) = true :=
        membersAreSound_mem sound.2 listed
      refine ⟨fun _ => ?_, fun _ => ih name within⟩
      simp [inside, setAside?, within]

end Shape

end Json

/-- From every document that agrees with its own, the value is read exactly when
it is one that is kept and all that must wait can. -/
def Understood {α : Type} [Saved α] (shape : Shape) (value : α)
    (kept : Prop) : Prop :=
  ∀ part : Part, shape.Agree (save value) part.json →
    (ofPart? part = some value ↔ kept ∧ shape.CanWait part)

theorem understood_plain {α : Type} [Saved α] {value : α} {kept : Prop}
    (restored : ∀ place, ofPart? ⟨place, save value⟩ = some value ↔ kept) :
    Understood .plain value kept := by
  rintro ⟨place, json⟩ same
  cases same
  exact (restored place).trans ⟨fun keeps => ⟨keeps, trivial⟩, And.left⟩

theorem readItems_iff {α : Type} [Saved α] {shape : Shape}
    {kept : α → Prop} (part : Part) {values : List α} {items : List Json}
    (alike : List.Forall₂ shape.Agree (values.map save) items)
    (each : ∀ value ∈ values, Understood shape value (kept value)) :
    items.mapM (fun item => ofPart? (part.inside item)) = some values ↔
      (∀ value ∈ values, kept value) ∧ ∀ item ∈ items,
        shape.CanWait (part.inside item) := by
  induction values generalizing items with
  | nil =>
      cases alike
      simp
  | cons first rest ih =>
      cases alike with
      | @cons _ item _ others head tail =>
          obtain ⟨understood, laterUnderstood⟩ := List.forall_mem_cons.mp each
          have read := understood (part.inside item) (by rwa [inside_json])
          have later := ih tail laterUnderstood
          simp only [List.mapM_cons, Option.pure_def, Option.bind_eq_bind,
            Option.bind_eq_some_iff, Option.some.injEq, List.cons.injEq,
            List.forall_mem_cons]
          constructor
          · rintro ⟨_, here, _, there, rfl, rfl⟩
            obtain ⟨keptHere, waitsHere⟩ := read.mp here
            obtain ⟨keptThere, waitsThere⟩ := later.mp there
            exact ⟨⟨keptHere, keptThere⟩, waitsHere, waitsThere⟩
          · rintro ⟨⟨keptHere, keptThere⟩, waitsHere, waitsThere⟩
            exact ⟨first, read.mpr ⟨keptHere, waitsHere⟩, rest,
              later.mpr ⟨keptThere, waitsThere⟩, rfl, rfl⟩

theorem understood_list {α : Type} [Saved α] {shape : Shape} {values : List α}
    {kept : α → Prop}
    (each : ∀ value ∈ values, Understood shape value (kept value)) :
    Understood (.list shape) values (∀ value ∈ values, kept value) := by
  rintro ⟨place, json⟩ agree
  obtain ⟨items, rfl, alike⟩ := agree.of_array
  refine (readItems_iff ⟨place, .array items⟩ alike each).trans
    (and_congr_right' ?_)
  constructor
  · rintro each _ ⟨⟩
    exact each
  · intro waits
    exact waits items rfl

/-! ### Records -/

section Fields

variable {α : Type} [Saved α] {fields : Fields} {name : String} {value : α}
  {shape : Shape}

/-- A field is found as it was saved, in one of its spellings. -/
def Json.Part.Fields.Spells (fields : Fields) (shape : Shape)
    (absent written : Option Json) (name : String) : Prop :=
  Shape.Alike shape.Agree absent written ((fields name).map Part.json)

/-- What the field has inside can wait. -/
def Json.Part.Fields.CanWait (fields : Fields) (name : String)
    (shape : Shape) : Prop :=
  ∀ part, fields name = some part → shape.CanWait part

theorem Json.Part.Fields.Spells.required {kept : Prop}
    (spelled : fields.Spells shape none (some (save value)) name)
    (understood : Understood shape value kept) :
    fields.required name = some value ↔ kept ∧ fields.CanWait name shape := by
  unfold Fields.Spells at spelled
  unfold Fields.required Fields.CanWait
  cases found : fields name with
  | none =>
      rw [found] at spelled
      cases spelled
  | some part =>
      rw [found] at spelled
      cases spelled with
      | some agree => simpa using understood part agree

theorem Json.Part.Fields.Spells.plain
    (spelled : fields.Spells .plain none (some (save value)) name)
    (restored : Restored value) : fields.required name = some value := by
  have understood : Understood .plain value True :=
    understood_plain fun place => iff_true_intro (restored place)
  exact (spelled.required understood).mpr ⟨trivial, fun _ _ => trivial⟩

theorem Json.Part.Fields.Spells.optional {default : α} {written : Option Json}
    (spelled : fields.Spells shape (some (save default)) written name)
    (stands : written.getD (save default) = save value)
    (restored : Restored value) (defaultRestored : Restored default) :
    fields.optional name default = some value := by
  have same : ((fields name).map Part.json).getD (save default) = save value :=
    Eq.trans spelled stands
  unfold Fields.optional
  cases found : fields name with
  | none =>
      have document : save default = save value := by simpa [found] using same
      have read := defaultRestored (.inOrder 0)
      rw [document, restored (.inOrder 0)] at read
      exact read.symm
  | some part =>
      obtain ⟨place, json⟩ := part
      obtain rfl : json = save value := by simpa [found] using same
      exact restored place

end Fields

theorem Json.Shape.canWait_among {shapes : List (String × Shape)}
    (distinct : (shapes.map Prod.fst).Nodup) (fields : Fields) :
    (∀ name, fields.CanWait name (among shapes name)) ↔
      ∀ pair ∈ shapes, fields.CanWait pair.1 pair.2 := by
  induction shapes with
  | nil => exact ⟨fun _ _ member => (nomatch member), fun _ _ _ _ => trivial⟩
  | cons pair rest ih =>
      obtain ⟨key, shape⟩ := pair
      obtain ⟨new, distinct⟩ := List.nodup_cons.mp distinct
      rw [List.forall_mem_cons, ← ih distinct]
      simp only [among_cons]
      constructor
      · intro all
        refine ⟨by simpa using all key, fun name => ?_⟩
        by_cases same : name = key
        · rw [same, among_of_not_mem new]
          exact fun _ _ => trivial
        · simpa [same] using all name
      · rintro ⟨first, all⟩ name
        split
        next same => exact same ▸ first
        next => exact all name

/-- Where there is no tag, all that must wait is inside the fields. -/
theorem Json.Shape.canWait_untagged {keys : Keys}
    (untagged : keys.choice = none) (inner : String → Shape) (place : Place)
    (members : List (Option String × Json)) :
    CanWait (.object keys inner) ⟨place, .object members⟩ ↔
      ∀ name, Fields.CanWait
        (fun name =>
          (member? members name).map (inside ⟨place, .object members⟩))
        name (inner name) := by
  have inOrder (name : String) : keys.waits members name = false := by
    simp [Keys.waits, untagged]
  constructor
  · intro all name part found
    obtain ⟨held, listed, rfl⟩ := Option.map_eq_some_iff.mp found
    exact (all members rfl name held listed).2 (inOrder name)
  · rintro all _ ⟨⟩ name held listed
    exact ⟨by simp [inOrder], fun _ => all name _ (by simp [listed])⟩

/-- A record is understood when each of its fields is. -/
theorem understood_record {α : Type} [Saved α] {value : α}
    {kept : Prop} {keys : Keys} {shapes : List (String × Shape)}
    {members : List (String × Json)} {build : Fields → Option α}
    (reading : ∀ part, (ofPart? part : Option α) =
      (part.fields? keys.known).bind build)
    (written : save value = ofMembers members)
    (nodup : (members.map Prod.fst).Nodup) (untagged : keys.choice = none)
    (distinct : (shapes.map Prod.fst).Nodup)
    (built : ∀ fields : Fields,
      (∀ name ∈ keys.known,
        fields.Spells (.among shapes name) (keys.absent.lookup name)
          (members.lookup name) name) →
      (build fields = some value ↔
        kept ∧ ∀ pair ∈ shapes, fields.CanWait pair.1 pair.2)) :
    Understood (.object keys (.among shapes)) value kept := by
  rintro ⟨place, json⟩ agree
  rw [written, ofMembers] at agree
  obtain ⟨others, rfl, sound, alike⟩ :=
    agree.of_object (keysAreSound_map keys.known nodup)
  rw [Shape.canWait_untagged untagged, Shape.canWait_among distinct, reading]
  simp only [fields?, sound, if_true, Option.bind_some]
  apply built
  intro name known
  have same := alike name known
  rw [member?_map] at same
  rwa [Fields.Spells, map_inside_json]

/-! ### Choices -/

/-- The shape of a choice whose content has the given one. -/
def Json.Shape.tagged (tag content : String) (shape : Shape) : Shape :=
  .object { known := [tag, content], choice := some (tag, content) }
    (.among [(content, shape)])

section Choices

variable {α β : Type} {tag content name : String} {cases : List (Case β)}

theorem Json.Part.setAside?_eq {part kept : Part}
    (waited : part.setAside? = some kept) :
    kept = ⟨.setAside, part.json⟩ := by
  unfold setAside? at waited
  split at waited
  · split at waited
    · cases waited
      rfl
    · cases waited
  next aside =>
      cases waited
      obtain ⟨place, json⟩ := part
      cases aside
      rfl

/-- The tag tells the case, which reads the content once that need not wait. -/
theorem tagged?_object {place : Place} {members : List (Option String × Json)}
    {case : Case β} (sound : keysAreSound [tag, content] members = true)
    (named : member? members tag = some (.ofString name))
    (found : caseOf? cases name = some case) :
    tagged? tag content cases ⟨place, .object members⟩ =
      match (member? members content).map (inside ⟨place, .object members⟩) with
      | none => case.ofContent? none
      | some inner =>
        if leads content tag members then
          inner.setAside?.bind fun kept => case.ofContent? (some kept)
        else case.ofContent? (some inner) := by
  obtain ⟨within, tagPart⟩ :=
    inside_eq ⟨place, .object members⟩ (.ofString name)
  cases spelled : member? members content with
  | none =>
      simp only [tagged?, sound, if_true, named, spelled, Option.map_some,
        Option.map_none, Option.bind_eq_bind, Option.bind_some, tagPart,
        name?_ofString, found]
  | some held =>
      simp only [tagged?, sound, if_true, named, spelled, Option.map_some,
        Option.bind_eq_bind, Option.bind_some, tagPart, name?_ofString, found]

theorem agree_tagged {shape : Shape} {members : List (String × Json)}
    {new : Json} (distinct : tag ≠ content)
    (nodup : (members.map Prod.fst).Nodup)
    (named : members.lookup tag = some (.ofString name))
    (agree : (Shape.tagged tag content shape).Agree (ofMembers members) new) :
    ∃ others, new = .object others ∧ keysAreSound [tag, content] others = true ∧
      member? others tag = some (.ofString name) ∧
      Option.Rel shape.Agree (members.lookup content)
        (member? others content) := by
  obtain ⟨others, spelled, sound, alike⟩ :=
    agree.of_object (keysAreSound_map _ nodup)
  have tagAlike := alike tag List.mem_cons_self
  have contentAlike := alike content (List.mem_cons_of_mem _ List.mem_cons_self)
  have apart : (tag == content) = false := by simpa using distinct
  simp only [member?_map, named, Shape.among, List.lookup_cons,
    List.lookup_nil, apart, beq_self_eq_true, Option.getD_none,
    Option.getD_some] at tagAlike contentAlike
  refine ⟨others, spelled, sound, ?_, contentAlike⟩
  generalize member? others tag = kept at tagAlike
  cases tagAlike with
  | some same =>
      cases same
      rfl

/-- In a choice only the content may have to wait: as a whole where it stands in
front of the tag, and otherwise for what is inside. -/
theorem canWait_tagged (distinct : tag ≠ content) {shape : Shape}
    {place : Place} {members : List (Option String × Json)} :
    (Shape.tagged tag content shape).CanWait ⟨place, .object members⟩ ↔
      ∀ held, member? members content = some held →
        (leads content tag members = true →
          (inside ⟨place, .object members⟩ held).setAside?.isSome = true) ∧
        (leads content tag members = false →
          shape.CanWait (inside ⟨place, .object members⟩ held)) := by
  constructor
  · intro all held listed
    have waits := all members rfl content held listed
    rw [Shape.among_cons, if_pos rfl] at waits
    simpa [Keys.waits] using waits
  · rintro waits _ ⟨⟩ name held listed
    rw [Shape.among_cons]
    by_cases same : name = content
    · subst same
      rw [if_pos rfl]
      simpa [Keys.waits] using waits held listed
    · have inOrder : content ≠ name := Ne.symm same
      simp [same, inOrder, Keys.waits, Shape.among, Shape.CanWait]

variable [Saved α] [Saved β]

theorem understood_bare {value : β} {shape : Shape}
    (reading : ∀ part, (ofPart? part : Option β) =
      tagged? tag content cases part)
    (distinct : tag ≠ content)
    (written : save value = ofMembers [(tag, .ofString name)])
    (found : caseOf? cases name = some (.bare name value)) :
    Understood (.tagged tag content shape) value True := by
  rintro ⟨place, json⟩ agree
  rw [written] at agree
  have apart : (content == tag) = false := by simpa using Ne.symm distinct
  have first : [(tag, Json.ofString name)].lookup tag =
      some (.ofString name) := by simp
  obtain ⟨others, rfl, sound, named, same⟩ :=
    agree_tagged distinct (by simp) first agree
  rw [reading, tagged?_object sound named found, canWait_tagged distinct]
  simp only [List.lookup_cons, apart, List.lookup_nil] at same
  generalize member? others content = missing at same ⊢
  cases same
  simp [Case.bare]

/-- A choice with content is understood when its content is, also where it had
to wait. -/
theorem understood_holding {held : α} {wrap : α → β}
    {shape : Shape} {kept : Prop}
    (reading : ∀ part, (ofPart? part : Option β) =
      tagged? tag content cases part)
    (distinct : tag ≠ content)
    (written : save (wrap held) =
      ofMembers [(tag, .ofString name), (content, save held)])
    (found : caseOf? cases name = some (.holding name wrap))
    (faithful : Function.Injective wrap)
    (understood : Understood shape held kept) :
    Understood (.tagged tag content shape) (wrap held) kept := by
  rintro ⟨place, json⟩ agree
  rw [written] at agree
  have apart : (content == tag) = false := by simpa using Ne.symm distinct
  have first : [(tag, Json.ofString name), (content, save held)].lookup tag =
      some (.ofString name) := by simp
  obtain ⟨others, rfl, sound, named, same⟩ :=
    agree_tagged distinct (by simpa using distinct) first agree
  rw [reading, tagged?_object sound named found, canWait_tagged distinct]
  have wrapped (part : Part) :
      (Case.holding name wrap).ofContent? (some part) = some (wrap held) ↔
        ofPart? part = some held := by
    simp [Case.holding, faithful.eq_iff]
  simp only [List.lookup_cons, apart, beq_self_eq_true] at same
  generalize member? others content = spelled at same ⊢
  cases same with
  | @some _ document agree =>
      simp only [Option.map_some, Option.some.injEq, forall_eq']
      cases early : leads content tag others with
      | true =>
          simp only [if_true, forall_const, reduceCtorEq,
            false_implies, and_true]
          -- The content waits: it is read from what was set aside, if it could
          -- be.
          cases waited :
            (inside ⟨place, .object others⟩ document).setAside? with
          | none => simp
          | some part =>
              have aside := setAside?_eq waited
              rw [inside_json] at aside
              subst aside
              rw [Option.bind_some, wrapped,
                understood ⟨.setAside, document⟩ agree]
              simp [Shape.canWait_setAside]
      | false =>
          simp only [Bool.false_eq_true, if_false, false_implies,
            forall_const, true_and]
          rw [wrapped]
          exact understood _ (by rwa [inside_json])

end Choices

end CircuitSections
