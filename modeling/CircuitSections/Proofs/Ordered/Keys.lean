import CircuitSections.Ordered.Lookup

/-!
# Membership by key

Where equal keys are the same key, an ascending collection is known from the
list of its keys: `keys_eq_iff` compares two collections by what they contain.
A scan that skips what is below a key and stops at the first element of another
kind is a filter, as soon as both tests respect the order.  The order in which
elements are put in does not matter (`foldl_put_perm`).
-/

namespace CircuitSections.Ascending

section Scans

variable {α : Type} {before : α → α → Prop} {p : α → Bool} {elements : List α}

/-- A prefix test that holds of everything before an element of which it holds
selects the same elements as a filter. -/
theorem takeWhile_eq_filter (sorted : elements.Pairwise before)
    (closed : ∀ a ∈ elements, ∀ b ∈ elements, before a b → p b → p a) :
    elements.takeWhile p = elements.filter p := by
  induction elements with
  | nil => rfl
  | cons a rest induction =>
      obtain ⟨below, restSorted⟩ := List.pairwise_cons.mp sorted
      have restClosed : ∀ b ∈ rest, ∀ c ∈ rest, before b c → p c → p b :=
        fun b bMember c cMember => closed b (List.mem_cons_of_mem a bMember) c
          (List.mem_cons_of_mem a cMember)
      by_cases holds : p a
      · rw [List.takeWhile_cons_of_pos holds, List.filter_cons_of_pos holds,
          induction restSorted restClosed]
      · have none : ∀ b ∈ rest, ¬ p b := by
          intro b member later
          exact holds
            (closed a List.mem_cons_self b (List.mem_cons_of_mem a member)
              (below b member) later)
        rw [List.takeWhile_cons_of_neg holds, List.filter_cons_of_neg holds,
          List.filter_eq_nil_iff.mpr none]

theorem dropWhile_eq_filter (sorted : elements.Pairwise before)
    (closed : ∀ a ∈ elements, ∀ b ∈ elements, before a b → p b → p a) :
    elements.dropWhile p = elements.filter fun a => !p a := by
  induction elements with
  | nil => rfl
  | cons a rest induction =>
      obtain ⟨below, restSorted⟩ := List.pairwise_cons.mp sorted
      have restClosed : ∀ b ∈ rest, ∀ c ∈ rest, before b c → p c → p b :=
        fun b bMember c cMember => closed b (List.mem_cons_of_mem a bMember) c
          (List.mem_cons_of_mem a cMember)
      by_cases holds : p a
      · rw [List.dropWhile_cons_of_pos holds,
          List.filter_cons_of_neg (by simp [holds]),
          induction restSorted restClosed]
      · have all : ∀ b ∈ rest, !p b := by
          intro b member
          have apart : ¬ p b := fun later =>
            holds (closed a List.mem_cons_self b (List.mem_cons_of_mem a member)
              (below b member) later)
          simp [apart]
        rw [List.dropWhile_cons_of_neg holds,
          List.filter_cons_of_pos (by simp [holds]),
          List.filter_eq_self.mpr all]

end Scans

variable {α κ : Type} [Ord κ] {key : α → κ}

/-- The keys, least first. -/
def keys (s : Ascending key) : List κ := s.toList.map key

theorem keys_ascending (s : Ascending key) :
    s.keys.Pairwise fun a b => compare a b = .lt :=
  List.pairwise_map.mpr s.ascending

@[simp]
theorem contains_empty (k : κ) : (empty : Ascending key).contains k = false :=
  rfl

theorem mem_difference {s t : Ascending key} {a : α} :
    a ∈ (s.difference t).toList ↔ a ∈ s.toList ∧
      t.contains (key a) = false := by
  simp [difference, filter]

theorem mem_erase [Std.LawfulEqOrd κ] {s : Ascending key} {k : κ} {a : α} :
    a ∈ (s.erase k).toList ↔ a ∈ s.toList ∧ key a ≠ k := by
  simp [erase, filter]

variable [Std.TransOrd κ]

theorem eq_of_key_eq {s : Ascending key} {a b : α} (left : a ∈ s.toList)
    (right : b ∈ s.toList) (same : key a = key b) : a = b := by
  have found := find?_key left
  rw [same, find?_key right] at found
  exact (Option.some.inj found).symm

private theorem mem_foldl_put {elements : List α} {s : Ascending key} {a : α}
    (member : a ∈ (elements.foldl put s).toList) : a ∈ elements ∨
      a ∈ s.toList := by
  induction elements generalizing s with
  | nil => exact .inr member
  | cons b rest induction =>
      rcases induction member with later | placed
      · exact .inl (List.mem_cons_of_mem b later)
      · rcases mem_put.mp placed with same | ⟨old, _⟩
        · exact .inl (same ▸ List.mem_cons_self)
        · exact .inr old

theorem mem_of_mem_ofList {elements : List α} {a : α}
    (member : a ∈ (ofList elements : Ascending key).toList) : a ∈ elements := by
  rcases mem_foldl_put member with listed | none
  · exact listed
  · exact absurd none List.not_mem_nil

variable [Std.LawfulEqOrd κ]

theorem contains_iff {s : Ascending key} {k : κ} :
    s.contains k = true ↔ ∃ a ∈ s.toList, key a = k := by
  rw [contains, Option.isSome_iff_exists]
  simp only [find?_eq_some_iff, Std.LawfulEqOrd.compare_eq_iff_eq]

theorem contains_iff_mem {s : Ascending fun k : κ => k} {k : κ} :
    s.contains k = true ↔ k ∈ s.toList := by
  simp [contains_iff]

theorem contains_iff_mem_keys {s : Ascending key} {k : κ} :
    s.contains k = true ↔ k ∈ s.keys := by
  rw [contains_iff, keys, List.mem_map]

theorem contains_of_mem {s : Ascending key} {a : α} (member : a ∈ s.toList) :
    s.contains (key a) = true :=
  contains_iff.mpr ⟨a, member, rfl⟩

theorem eq_empty_of_contains {s : Ascending key}
    (none : ∀ k, ¬ s.contains k = true) :
    s = empty := by
  apply ext
  apply List.eq_nil_iff_forall_not_mem.mpr
  intro a member
  exact none (key a) (contains_of_mem member)

theorem difference_eq_nil {s t : Ascending key}
    (contained : ∀ k, s.contains k = true → t.contains k = true) :
    (s.difference t).toList = [] := by
  apply List.eq_nil_iff_forall_not_mem.mpr
  intro a member
  obtain ⟨listed, absent⟩ := mem_difference.mp member
  rw [contained (key a) (contains_of_mem listed)] at absent
  cases absent

theorem difference_eq_nil_iff {s t : Ascending key} :
    (s.difference t).toList = [] ↔ ∀ k, s.contains k = true →
      t.contains k = true := by
  refine ⟨fun nothing k contained => ?_, difference_eq_nil⟩
  obtain ⟨a, member, rfl⟩ := contains_iff.mp contained
  apply Decidable.byContradiction
  intro absent
  have left : a ∈ (s.difference t).toList :=
    mem_difference.mpr ⟨member, by simpa using absent⟩
  rw [nothing] at left
  exact absurd left List.not_mem_nil

theorem contains_difference {s t : Ascending key} {k : κ} :
    (s.difference t).contains k = true ↔ s.contains k = true ∧
      ¬ t.contains k = true := by
  simp only [contains_iff (s := s.difference t), contains_iff (s := s),
    mem_difference]
  constructor
  · intro found
    obtain ⟨a, ⟨member, absent⟩, rfl⟩ := found
    exact ⟨⟨a, member, rfl⟩, by simp [absent]⟩
  · intro found
    obtain ⟨⟨a, member, rfl⟩, absent⟩ := found
    exact ⟨a, ⟨member, by simpa using absent⟩, rfl⟩

theorem contains_put (s : Ascending key) (a : α) (k : κ) :
    (s.put a).contains k = true ↔ key a = k ∨ s.contains k = true := by
  rw [contains, contains, find?_put]
  by_cases same : key a = k
  · simp [same]
  · simp [same]

theorem contains_foldl_put (elements : List α) (s : Ascending key) (k : κ) :
    (elements.foldl put s).contains k = true ↔
      (∃ a ∈ elements, key a = k) ∨ s.contains k = true := by
  induction elements generalizing s with
  | nil => simp
  | cons b rest induction =>
      rw [List.foldl_cons, induction, contains_put]
      simp only [List.mem_cons, exists_eq_or_imp]
      rw [← or_assoc]
      exact or_congr_left or_comm

theorem contains_ofList {elements : List α} {k : κ} :
    (ofList elements : Ascending key).contains k = true ↔
      ∃ a ∈ elements, key a = k := by
  rw [ofList, contains_foldl_put]
  simp

omit [Std.LawfulEqOrd κ] in
theorem keys_nodup (s : Ascending key) : s.keys.Nodup := by
  refine s.keys_ascending.imp fun {a b} below equal => ?_
  simp [equal] at below

/-- Collections with the same keys are those that contain the same. -/
theorem keys_eq_iff {s t : Ascending key} :
    s.keys = t.keys ↔ ∀ k, s.contains k = true ↔ t.contains k = true := by
  simp only [contains_iff_mem_keys]
  constructor
  · intro same k
    rw [same]
  · intro same
    refine List.Perm.eq_of_pairwise ?_ s.keys_ascending t.keys_ascending
      ((List.perm_ext_iff_of_nodup s.keys_nodup t.keys_nodup).mpr same)
    intro a b _ _ below above
    have cycle := Std.TransCmp.lt_trans below above
    simp at cycle

/-! ### Changing all elements -/

omit [Std.LawfulEqOrd κ] in
theorem keys_apart (s : Ascending key) : s.toList.Pairwise fun a b =>
    key a ≠ key b := by
  refine s.ascending.imp fun {a b} below equal => ?_
  simp [equal] at below

omit [Std.LawfulEqOrd κ] in
theorem ext_mem {s t : Ascending key}
    (same : ∀ a, a ∈ s.toList ↔ a ∈ t.toList) : s = t := by
  apply ext_find?
  intro k
  ext a
  rw [find?_eq_some_iff, find?_eq_some_iff, same]

omit [Std.LawfulEqOrd κ] in
/-- A part of a collection, taken in its order, is told by its elements. -/
theorem toList_eq_of_sublist {s t : Ascending key} {part : List α}
    (among : part.Sublist t.toList) (same : ∀ a, a ∈ s.toList ↔ a ∈ part) :
    s.toList = part := by
  let collected : Ascending key := ⟨part, t.ascending.sublist among⟩
  have equal : s = collected := ext_mem same
  rw [equal]

theorem toList_ofList {elements : List α}
    (ascending : elements.Pairwise fun a b => compare (key a) (key b) = .lt) :
    (ofList elements : Ascending key).toList = elements := by
  let collected : Ascending key := ⟨elements, ascending⟩
  have same : (ofList elements : Ascending key) = collected := by
    apply ext_mem
    intro a
    refine ⟨mem_of_mem_ofList, fun member => ?_⟩
    have contained : (ofList elements : Ascending key).contains (key a) =
        true :=
      contains_ofList.mpr ⟨a, member, rfl⟩
    obtain ⟨b, there, equal⟩ := contains_iff.mp contained
    have listed : b ∈ collected.toList := mem_of_mem_ofList there
    rwa [← eq_of_key_eq listed member equal]
  rw [same]

omit [Std.TransOrd κ] [Std.LawfulEqOrd κ] in
theorem mem_mapKeeping {s : Ascending key} {f : α → α}
    {keeps : ∀ a, key (f a) = key a} {b : α} :
    b ∈ (s.mapKeeping f keeps).toList ↔ ∃ a ∈ s.toList, f a = b := List.mem_map

/-- What is there after elements of different keys were put in, changed but for
their keys. -/
theorem mem_foldl_put_map {f : α → α} (keeps : ∀ a, key (f a) = key a)
    {elements : List α} (apart : elements.Pairwise fun a b => key a ≠ key b)
    {s : Ascending key} {b : α} :
    b ∈ (elements.foldl (fun s a => s.put (f a)) s).toList ↔
      (∃ a ∈ elements, f a = b) ∨ b ∈ s.toList ∧ ∀ a ∈ elements,
        key a ≠ key b := by
  induction elements generalizing s with
  | nil => simp
  | cons first rest induction =>
      obtain ⟨firstApart, restApart⟩ := List.pairwise_cons.mp apart
      rw [List.foldl_cons, induction restApart, mem_put]
      simp only [List.mem_cons, exists_eq_or_imp, forall_eq_or_imp, keeps,
        Std.LawfulEqOrd.compare_eq_iff_eq, ne_eq]
      constructor
      · intro there
        rcases there with later | ⟨new | ⟨old, other⟩, others⟩
        · exact .inl (.inr later)
        · exact .inl (.inl new.symm)
        · exact .inr ⟨old, Ne.symm other, others⟩
      · intro there
        rcases there with (new | later) | ⟨old, other, others⟩
        · subst new
          refine .inr ⟨.inl rfl, fun a member => ?_⟩
          rw [keeps]
          exact Ne.symm (firstApart a member)
        · exact .inl later
        · exact .inr ⟨.inr ⟨old, Ne.symm other⟩, others⟩

/-- All elements of a collection, put in any order over some that have their
keys, make up the collection again, changed where they were. -/
theorem foldl_put_perm {f : α → α} (keeps : ∀ a, key (f a) = key a)
    {s t : Ascending key} {elements : List α} (order : elements.Perm s.toList)
    (covered : ∀ b ∈ t.toList, ∃ a ∈ s.toList, key a = key b) :
    elements.foldl (fun s a => s.put (f a)) t = s.mapKeeping f keeps := by
  have apart : elements.Pairwise fun a b => key a ≠ key b :=
    (order.pairwise_iff fun {a b} => Ne.symm).mpr s.keys_apart
  apply ext_mem
  intro b
  rw [mem_foldl_put_map keeps apart, mem_mapKeeping]
  simp only [order.mem_iff]
  refine or_iff_left ?_
  intro both
  obtain ⟨old, others⟩ := both
  obtain ⟨a, member, same⟩ := covered b old
  exact others a member same

end CircuitSections.Ascending
