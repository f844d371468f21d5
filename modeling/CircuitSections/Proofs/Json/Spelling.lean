import CircuitSections.Save.Form
import Mathlib.Data.List.Forall2
import Mathlib.Data.Option.Basic
import Mathlib.Logic.Relation

/-!
# Spellings of a document

A value is written in one way and may be read from others: what stands for its
absence may be left out or written, some names have a second spelling, and the
members of an object come in any order and among unknown ones.  Such changes are
made one at a time, anywhere in a document and as often as one likes
(`Spelling`).  They keep what a reader looks at: under every known name it finds
what it found before, up to changes further inside (`Agree`).
-/

namespace CircuitSections.Json

/-- What a type knows of the members of its objects. -/
structure Keys where
  /-- The names of the type. -/
  known : List String
  /-- The values that absent members stand for. -/
  absent : List (String × Json) := []
  /-- The tag and the name of its content, where the object is a choice. -/
  choice : Option (String × String) := none

/-- What may differ between the spellings of a value. -/
inductive Shape
  /-- Nothing may. -/
  | plain
  /-- A name that is written in one way and may have others. -/
  | name (written : String → String)
  | list (item : Shape)
  | object (keys : Keys) (inner : String → Shape)

namespace Shape

/-- The shape under a name; nothing differs where none is given. -/
def among (shapes : List (String × Shape)) (name : String) : Shape :=
  (shapes.lookup name).getD plain

theorem among_cons (key name : String) (shape : Shape)
    (rest : List (String × Shape)) :
    among ((key, shape) :: rest) name = if name = key then shape
      else among rest name := by
  by_cases same : name = key
  · simp [among, same]
  · have unequal : (name == key) = false := by simpa using same
    simp [among, List.lookup_cons, unequal, same]

theorem among_of_not_mem {shapes : List (String × Shape)} {name : String}
    (unlisted : name ∉ shapes.map Prod.fst) : among shapes name = plain := by
  induction shapes with
  | nil => rfl
  | cons pair rest ih =>
      rw [List.map_cons, List.mem_cons, not_or] at unlisted
      rw [among_cons, if_neg unlisted.1]
      exact ih unlisted.2

/-- A change at one place of a document. -/
inductive Change : Shape → Json → Json → Prop
  /-- A name is spelled in another way. -/
  | respell {written : String → String} {first other : String} :
      written other = written first →
      Change (name written) (.ofString first) (.ofString other)
  /-- A member that says what its absence says is left out. -/
  | leaveOut {keys : Keys} {inner : String → Shape}
      {name : String} {value : Json}
      (before after : List (Option String × Json)) :
      keys.absent.lookup name = some value →
      Change (object keys inner)
        (.object (before ++ (some name, value) :: after))
        (.object (before ++ after))
  /-- A member that was left out is written. -/
  | spellOut {keys : Keys} {inner : String → Shape}
      {name : String} {value : Json}
      {members : List (Option String × Json)} :
      keys.absent.lookup name = some value → member? members name = none →
      Change (object keys inner) (.object members)
        (.object ((some name, value) :: members))
  | reorder {keys : Keys} {inner : String → Shape}
      {members others : List (Option String × Json)} :
      members.Perm others → Change (object keys inner) (.object members)
        (.object others)
  /-- A member that the type does not know is added, whatever its value. -/
  | add {keys : Keys} {inner : String → Shape} {name : String} (value : Json)
      (members : List (Option String × Json)) :
      name ∉ keys.known →
      Change (object keys inner) (.object members)
        (.object ((some name, value) :: members))
  /-- Something inside a member changes. -/
  | inside {keys : Keys} {inner : String → Shape} {name : String}
      {value other : Json}
      (before after : List (Option String × Json)) :
      keys.absent.lookup name = none → Change (inner name) value other →
      Change (object keys inner)
        (.object (before ++ (some name, value) :: after))
        (.object (before ++ (some name, other) :: after))
  /-- Something inside an item changes. -/
  | item {item : Shape} {value other : Json} (before after : List Json) :
      Change item value other →
      Change (list item) (.array (before ++ value :: after))
        (.array (before ++ other :: after))

/-- A document after any number of changes. -/
abbrev Spelling (shape : Shape) : Json → Json → Prop :=
  Relation.ReflTransGen (Change shape)

namespace Spelling

variable {keys : Keys} {inner : String → Shape} {name : String}
  {value other : Json}

theorem inside (before after : List (Option String × Json))
    (plain : keys.absent.lookup name = none)
    (spelling : Spelling (inner name) value other) :
    Spelling (object keys inner)
      (.object (before ++ (some name, value) :: after))
      (.object (before ++ (some name, other) :: after)) := by
  induction spelling with
  | refl => exact .refl
  | tail _ change ih => exact ih.tail (.inside before after plain change)

theorem item {shape : Shape} (before after : List Json)
    (spelling : Spelling shape value other) :
    Spelling (list shape) (.array (before ++ value :: after))
      (.array (before ++ other :: after)) := by
  induction spelling with
  | refl => exact .refl
  | tail _ change ih => exact ih.tail (.item before after change)

end Spelling

/-! ### Members under a name -/

section Members

variable {members others before after : List (Option String × Json)}
  {name other : String}
  {value : Json} {names : List String}

/-- The members of an object under a name. -/
def under (members : List (Option String × Json)) (name : String) :
    List (Option String × Json) :=
  members.filter fun member => member.1 = some name

theorem member?_eq : member? members name =
    (under members name).head?.map Prod.snd := by
  rw [member?, under, List.head?_filter]

theorem keysAreSound_iff : keysAreSound names members = true ↔
    (∀ member ∈ members, member.1.isSome = true) ∧
      ∀ name ∈ names, (under members name).length ≤ 1 := by
  simp [keysAreSound, under]

theorem under_insert_of_ne (apart : other ≠ name) :
    under (before ++ (some name, value) :: after) other =
      under (before ++ after) other := by
  simp [under, Ne.symm apart]

theorem under_insert :
    under (before ++ (some name, value) :: after) name =
      under before name ++ (some name, value) :: under after name := by
  simp [under]

theorem member?_of_once
    (once : (under (before ++ (some name, value) :: after) name).length ≤ 1) :
    member? (before ++ (some name, value) :: after) name = some value ∧
      under (before ++ after) name = [] := by
  rw [under_insert, List.length_append, List.length_cons] at once
  have front : under before name = [] :=
    List.eq_nil_of_length_eq_zero (by omega)
  have behind : under after name = [] :=
    List.eq_nil_of_length_eq_zero (by omega)
  constructor
  · rw [member?_eq, under_insert, front]
    rfl
  · rw [under, List.filter_append]
    exact List.append_eq_nil_iff.mpr ⟨front, behind⟩

theorem member?_eq_of_under (same : under members name = under others name) :
    member? members name = member? others name := by
  rw [member?_eq, member?_eq, same]

end Members

/-! ### Agreement -/

/-- Two members say the same, where an absent one may stand for a value. -/
def Alike (agree : Json → Json → Prop) : (absent : Option Json) → Option Json →
    Option Json → Prop
  | some value, old, new => new.getD value = old.getD value
  | none, old, new => Option.Rel agree old new

/-- A reader that keeps to a shape finds the same in two documents.  It finds
nothing in an object whose keys are not sound. -/
def Agree : Shape → Json → Json → Prop
  | plain, old, new => new = old
  | name written, old, new =>
    new = old ∨ ∃ first other, old = .ofString first ∧ new = .ofString other ∧
      written other = written first
  | list item, old, new =>
    new = old ∨ ∃ items others, old = .array items ∧ new = .array others ∧
      List.Forall₂ (Agree item) items others
  | object keys inner, old, new =>
    new = old ∨ ∃ members others, old = .object members ∧ new = .object others ∧
      (keysAreSound keys.known members = true →
        keysAreSound keys.known others = true ∧
        ∀ name ∈ keys.known, Alike (Agree (inner name))
          (keys.absent.lookup name)
          (member? members name) (member? others name))

theorem Agree.refl (shape : Shape) (document : Json) :
    Agree shape document document := by
  cases shape with
  | plain => exact rfl
  | name | list | object => exact .inl rfl

private theorem forall₂_trans {relation : Json → Json → Prop}
    (trans : ∀ a b c, relation a b → relation b c → relation a c)
    {first second third : List Json} (left : List.Forall₂ relation first second)
    (right : List.Forall₂ relation second third) :
    List.Forall₂ relation first third := by
  induction left generalizing third with
  | nil => exact right
  | cons head _ ih =>
      cases right with
      | cons next rest => exact .cons (trans _ _ _ head next) (ih rest)

theorem Alike.refl {agree : Json → Json → Prop}
    (same : ∀ document, agree document document) (absent found : Option Json) :
    Alike agree absent found found := by
  cases absent with
  | some value => exact rfl
  | none =>
      cases found with
      | none => exact .none
      | some document => exact .some (same document)

theorem Agree.of_array {item : Shape} {items : List Json} {new : Json}
    (agree : Agree (list item) (.array items) new) :
    ∃ others, new = .array others ∧ List.Forall₂ (Agree item) items others := by
  rcases agree with rfl | ⟨_, others, same, rfl, alike⟩
  · exact ⟨items, rfl, List.forall₂_same.mpr fun document _ =>
      Agree.refl item document⟩
  · cases same
    exact ⟨others, rfl, alike⟩

theorem Agree.of_object {keys : Keys} {inner : String → Shape}
    {members : List (Option String × Json)} {new : Json}
    (agree : Agree (object keys inner) (.object members) new)
    (sound : keysAreSound keys.known members = true) :
    ∃ others, new = .object others ∧ keysAreSound keys.known others = true ∧
      ∀ name ∈ keys.known, Alike (Agree (inner name)) (keys.absent.lookup name)
        (member? members name) (member? others name) := by
  rcases agree with rfl | ⟨_, others, same, rfl, alike⟩
  · exact ⟨members, rfl, sound, fun name _ =>
      Alike.refl (Agree.refl (inner name)) _ _⟩
  · cases same
    exact ⟨others, rfl, alike sound⟩

theorem Alike.trans {agree : Json → Json → Prop}
    (trans : ∀ a b c, agree a b → agree b c → agree a c)
    {absent first second third : Option Json}
    (left : Alike agree absent first second)
    (right : Alike agree absent second third) :
    Alike agree absent first third := by
  cases absent with
  | some value => exact Eq.trans right left
  | none =>
      cases left with
      | none => exact right
      | some head =>
          cases right with
          | some next => exact .some (trans _ _ _ head next)

theorem Agree.trans {shape : Shape} {first second third : Json}
    (left : Agree shape first second) (right : Agree shape second third) :
    Agree shape first third := by
  induction shape generalizing first second third with
  | plain => exact Eq.trans right left
  | name written =>
      rcases left with rfl | ⟨name, between, rfl, rfl, same⟩
      · exact right
      · rcases right with rfl | ⟨middle, other, known, rfl, next⟩
        · exact .inr ⟨name, between, rfl, rfl, same⟩
        · cases known
          exact .inr ⟨name, other, rfl, rfl, next.trans same⟩
  | list item ih =>
      rcases left with rfl | ⟨items, between, rfl, rfl, same⟩
      · exact right
      · rcases right with rfl | ⟨middle, others, known, rfl, next⟩
        · exact .inr ⟨items, between, rfl, rfl, same⟩
        · cases known
          have inward (a b c : Json) (left : Agree item a b)
              (right : Agree item b c) :
              Agree item a c := ih left right
          exact .inr ⟨items, others, rfl, rfl, forall₂_trans inward same next⟩
  | object keys inner ih =>
      rcases left with rfl | ⟨members, between, rfl, rfl, same⟩
      · exact right
      · rcases right with rfl | ⟨middle, others, known, rfl, next⟩
        · exact .inr ⟨members, between, rfl, rfl, same⟩
        · cases known
          refine .inr ⟨members, others, rfl, rfl, fun sound => ?_⟩
          obtain ⟨stillSound, alike⟩ := same sound
          obtain ⟨finallySound, alikeNext⟩ := next stillSound
          refine ⟨finallySound, fun name listed => ?_⟩
          have inward (a b c : Json) (left : Agree (inner name) a b)
              (right : Agree (inner name) b c) : Agree (inner name) a c :=
                ih name left right
          exact (alike name listed).trans inward (alikeNext name listed)

/-! ### Changes keep agreement -/

section Objects

variable {keys : Keys} {inner : String → Shape}
  {members others : List (Option String × Json)}

/-- Objects agree when under each known name they have at most one member, and
alike ones. -/
theorem agree_object (strings : (∀ member ∈ members, member.1.isSome = true) →
      ∀ member ∈ others, member.1.isSome = true)
    (fields : ∀ name ∈ keys.known, (under members name).length ≤ 1 →
      (under others name).length ≤ 1 ∧
        Alike (Agree (inner name)) (keys.absent.lookup name)
          (member? members name)
          (member? others name)) :
    Agree (object keys inner) (.object members) (.object others) := by
  refine .inr ⟨members, others, rfl, rfl, fun sound => ?_⟩
  rw [keysAreSound_iff] at sound ⊢
  obtain ⟨allStrings, once⟩ := sound
  exact ⟨⟨strings allStrings, fun name known =>
    (fields name known (once name known)).1⟩, fun name known =>
      (fields name known (once name known)).2⟩

theorem unchanged {name : String}
    (same : under others name = under members name)
    (once : (under members name).length ≤ 1) :
    (under others name).length ≤ 1 ∧
      Alike (Agree (inner name)) (keys.absent.lookup name)
        (member? members name)
        (member? others name) := by
  rw [same, member?_eq_of_under same]
  exact ⟨once, Alike.refl (Agree.refl (inner name)) _ _⟩

end Objects

theorem Change.agree {shape : Shape} {old new : Json}
    (change : Change shape old new) :
    Agree shape old new := by
  induction change with
  | respell same => exact .inr ⟨_, _, rfl, rfl, same⟩
  | @leaveOut keys inner name value before after absent =>
      apply agree_object
      · intro strings member listed
        apply strings member
        simp only [List.mem_append, List.mem_cons] at listed ⊢
        tauto
      · intro other known once
        by_cases same : other = name
        · subst same
          obtain ⟨found, rest⟩ := member?_of_once once
          rw [found, member?_eq, rest, absent]
          exact ⟨Nat.zero_le 1, rfl⟩
        · exact unchanged (under_insert_of_ne same).symm once
  | @spellOut keys inner name value members absent missing =>
      apply agree_object
      · intro strings
        exact List.forall_mem_cons.mpr ⟨rfl, strings⟩
      · intro other known once
        by_cases same : other = name
        · subst same
          have none : under members other = [] := by
            rw [member?_eq] at missing
            simpa using missing
          have only : under ((some other, value) :: members) other =
              [(some other, value)] := by
            simpa [under] using none
          rw [only, member?_eq, member?_eq, only, none, absent]
          exact ⟨Nat.le_refl 1, rfl⟩
        · exact unchanged (by simp [under, Ne.symm same]) once
  | @reorder keys inner members others permuted =>
      apply agree_object
      · intro strings member listed
        exact strings member (permuted.mem_iff.mpr listed)
      · intro name known once
        have same : (under members name).Perm (under others name) :=
          permuted.filter _
        refine unchanged ?_ once
        rcases found : under members name with _ | ⟨member, rest⟩
        · rw [found] at same
          exact List.nil_perm.mp same
        · obtain rfl : rest = [] := by
            rw [found] at once
            exact List.eq_nil_of_length_eq_zero (by simpa using once)
          rw [found] at same
          exact (List.singleton_perm.mp same).symm
  | @add keys inner name value members unknown =>
      apply agree_object
      · intro strings
        exact List.forall_mem_cons.mpr ⟨rfl, strings⟩
      · intro other known once
        have apart : other ≠ name := fun same => unknown (same ▸ known)
        exact unchanged (by simp [under, Ne.symm apart]) once
  | @inside keys inner name value changed before after plain _ ih =>
      apply agree_object
      · intro strings member listed
        simp only [List.mem_append, List.mem_cons] at listed
        rcases listed with early | rfl | late
        · exact strings member (List.mem_append_left _ early)
        · exact rfl
        · exact strings member
            (List.mem_append_right _ (List.mem_cons_of_mem _ late))
      · intro other known once
        by_cases same : other = name
        · subst same
          have onceNew :
              (under (before ++ (some other, changed) :: after) other).length ≤
                1 := by
            rw [under_insert] at once ⊢
            simpa using once
          rw [(member?_of_once once).1, (member?_of_once onceNew).1, plain]
          exact ⟨onceNew, .some ih⟩
        · refine unchanged ?_ once
          rw [under_insert_of_ne same, under_insert_of_ne same]
  | @item item value changed before after _ ih =>
      refine .inr ⟨_, _, rfl, rfl, ?_⟩
      have same (items : List Json) : List.Forall₂ (Agree item) items items :=
        List.forall₂_same.mpr fun document _ => Agree.refl item document
      exact List.rel_append (same before) (.cons ih (same after))

/-- Whatever is changed, a reader that keeps to the shape finds the same. -/
theorem Spelling.agree {shape : Shape} {old new : Json}
    (spelling : Spelling shape old new) :
    Agree shape old new := by
  induction spelling with
  | refl => exact Agree.refl shape old
  | tail _ change ih => exact ih.trans change.agree

end Shape

end CircuitSections.Json
