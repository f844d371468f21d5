import CircuitSections.Ordered.Ascending

/-!
# Looking up by key

What is found under a key after each operation on an ascending collection.
Look-up determines the collection, so two collections are equal as soon as they
find the same under every key.
-/

namespace CircuitSections

namespace Ascending

variable {α κ : Type} [Ord κ] [Std.TransOrd κ] {key : α → κ}

theorem find?_eq_some_iff {s : Ascending key} {k : κ} {a : α} :
    s.find? k = some a ↔ a ∈ s.toList ∧ compare (key a) k = .eq := by
  constructor
  · intro found
    exact ⟨List.mem_of_find?_eq_some
      found, by simpa using List.find?_some found⟩
  · rintro ⟨member, equal⟩
    obtain ⟨before, after, split⟩ := List.append_of_mem member
    have ascending := s.ascending
    rw [split] at ascending
    refine List.find?_eq_some_iff_append.mpr
      ⟨by simp [equal], before, after, split, ?_⟩
    intro b earlier
    have below : compare (key b) (key a) = .lt :=
      (List.pairwise_append.mp ascending).2.2 b earlier a List.mem_cons_self
    simp [Std.TransCmp.lt_of_lt_of_eq below equal]

theorem find?_key {s : Ascending key} {a : α} (member : a ∈ s.toList) :
    s.find? (key a) = some a :=
  find?_eq_some_iff.mpr ⟨member, Std.ReflOrd.compare_self⟩

omit [Std.TransOrd κ] in
@[simp]
theorem find?_empty (k : κ) : (empty : Ascending key).find? k = none := rfl

theorem mem_put {s : Ascending key} {a b : α} :
    b ∈ (s.put a).toList ↔ b = a ∨ b ∈ s.toList ∧
      compare (key b) (key a) ≠ .eq := by
  show b ∈ place key a s.toList ↔ _
  have ascending := s.ascending
  generalize s.toList = elements at ascending
  induction elements with
  | nil => simp [place]
  | cons c rest induction =>
    obtain ⟨below, restAscending⟩ := List.pairwise_cons.mp ascending
    have apart : compare (key a) (key c) ≠ .gt → b ∈ rest →
        compare (key b) (key a) ≠ .eq := by
      intro notAbove later equal
      have less := Std.TransCmp.lt_of_lt_of_eq (below b later) equal
      exact notAbove (Std.OrientedCmp.gt_of_lt less)
    simp only [place]
    split
    next less =>
      have notEqual : compare (key c) (key a) ≠ .eq := by
        simp [Std.OrientedCmp.gt_of_lt less]
      grind
    next equal =>
      have equal' : compare (key c) (key a) = .eq :=
        Std.OrientedCmp.eq_symm equal
      grind
    next greater =>
      have notEqual : compare (key c) (key a) ≠ .eq := by
        simp [Std.OrientedCmp.lt_of_gt greater]
      grind

theorem find?_put (s : Ascending key) (a : α) (k : κ) :
    (s.put a).find? k = if compare (key a) k = .eq then some a
      else s.find? k := by
  ext b
  rw [find?_eq_some_iff, mem_put]
  split
  next equal =>
    constructor
    · rintro ⟨rfl | ⟨_, apart⟩, same⟩
      · rfl
      · exact absurd
          (Std.TransCmp.eq_trans same (Std.OrientedCmp.eq_symm equal)) apart
    · rintro ⟨⟩
      exact ⟨.inl rfl, equal⟩
  next apart =>
    rw [find?_eq_some_iff]
    constructor
    · rintro ⟨rfl | ⟨member, _⟩, same⟩
      · exact absurd same apart
      · exact ⟨member, same⟩
    · rintro ⟨member, same⟩
      refine ⟨.inr ⟨member, fun equal => apart ?_⟩, same⟩
      exact Std.TransCmp.eq_trans (Std.OrientedCmp.eq_symm equal) same

theorem find?_filter (s : Ascending key) (p : α → Bool) (k : κ) :
    (s.filter p).find? k = (s.find? k).filter p := by
  ext b
  simp only [Option.filter_eq_some_iff, find?_eq_some_iff, filter,
    List.mem_filter]
  grind

theorem find?_erase (s : Ascending key) (k l : κ) :
    (s.erase k).find? l = if compare k l = .eq then none else s.find? l := by
  ext b
  simp only [erase, find?_filter, Option.filter_eq_some_iff, find?_eq_some_iff]
  split
  next equal =>
    simp only [reduceCtorEq, iff_false]
    rintro ⟨⟨_, same⟩, apart⟩
    simp [Std.TransCmp.eq_trans same (Std.OrientedCmp.eq_symm equal)] at apart
  next apart =>
    rw [find?_eq_some_iff]
    refine ⟨And.left, fun found => ⟨found, ?_⟩⟩
    simp only [bne_iff_ne, ne_eq]
    exact fun equal =>
      apart (Std.TransCmp.eq_trans (Std.OrientedCmp.eq_symm equal) found.2)

omit [Std.TransOrd κ] in
theorem find?_mapKeeping (s : Ascending key) (f : α → α)
    (keeps : ∀ a, key (f a) = key a) (k : κ) : (s.mapKeeping f keeps).find? k =
      (s.find? k).map f := by
  simp only [find?, mapKeeping, List.find?_map, Function.comp_def, keeps]

theorem ext_find? {s t : Ascending key} (same : ∀ k, s.find? k = t.find? k) :
    s = t := by
  have members : ∀ a, a ∈ s.toList ↔ a ∈ t.toList := by
    intro a
    constructor
    · exact fun member =>
        (find?_eq_some_iff.mp ((same _).symm.trans (find?_key member))).1
    · exact fun member =>
        (find?_eq_some_iff.mp ((same _).trans (find?_key member))).1
  have irreflexive (a : α) : compare (key a) (key a) ≠ .lt := by simp
  have distinct {u : Ascending key} : u.toList.Nodup := by
    refine u.ascending.imp fun {a b} below equal => ?_
    exact irreflexive a (by rwa [← equal] at below)
  refine ext (List.Perm.eq_of_pairwise ?_ s.ascending t.ascending
    ((List.perm_ext_iff_of_nodup distinct distinct).mpr members))
  intro a b _ _ below above
  exact absurd (Std.TransCmp.lt_trans below above) (irreflexive a)

end Ascending

end CircuitSections
