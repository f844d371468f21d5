/-!
# Collections in ascending order of a key

An `Ascending key` holds at most one element per key, in ascending key order.
The key is a function of the element, so the same type serves as a set
(the element is its own key), as a map (the key is the first component) and as
a collection of records.  Two collections are equal exactly when they hold the
same elements in the same places, so equality needs no representation
invariant.
-/

namespace CircuitSections

/-- A list of elements in strictly ascending order of their keys. -/
structure Ascending {α κ : Type} [Ord κ] (key : α → κ) where
  /-- The elements, least key first. -/
  toList : List α
  /-- Each key is below every later one. -/
  ascending : toList.Pairwise fun a b => compare (key a) (key b) = .lt

namespace Ascending

variable {α κ : Type} [Ord κ] {key : α → κ}

@[ext]
theorem ext {s t : Ascending key} (equal : s.toList = t.toList) : s = t := by
  cases s
  cases t
  cases equal
  rfl

instance [DecidableEq α] : DecidableEq (Ascending key) := fun s t =>
  decidable_of_iff (s.toList = t.toList) ⟨ext, fun equal => equal ▸ rfl⟩

def empty : Ascending key := ⟨[], .nil⟩

instance : Inhabited (Ascending key) := ⟨empty⟩

def size (s : Ascending key) : Nat := s.toList.length

def isEmpty (s : Ascending key) : Bool := s.toList.isEmpty

/-- The element with the given key. -/
def find? (s : Ascending key) (k : κ) : Option α :=
  s.toList.find? fun a => compare (key a) k == .eq

def contains (s : Ascending key) (k : κ) : Bool := (s.find? k).isSome

def filter (p : α → Bool) (s : Ascending key) : Ascending key :=
  ⟨s.toList.filter p, s.ascending.sublist List.filter_sublist⟩

/-- The elements other than the one with the given key. -/
def erase (s : Ascending key) (k : κ) : Ascending key :=
  s.filter fun a => compare (key a) k != .eq

/-- The elements of `s` whose keys do not occur in `t`. -/
def difference (s t : Ascending key) : Ascending key :=
  s.filter fun a => !t.contains (key a)

/-- The elements from the first whose key is not below `k`. -/
def startingAt (s : Ascending key) (k : κ) : List α :=
  s.toList.dropWhile fun a => compare (key a) k == .lt

/-- The image under a function that keeps every key. -/
def mapKeeping (f : α → α) (keeps : ∀ a, key (f a) = key a)
    (s : Ascending key) :
    Ascending key :=
  ⟨s.toList.map f, s.ascending.map f fun a b below => by rwa [keeps a, keeps b]⟩

/-- Puts an element into a list in ascending order, in place of the one with
its key. -/
def place (key : α → κ) (a : α) : List α → List α
  | [] => [a]
  | b :: rest =>
    match compare (key a) (key b) with
    | .lt => a :: b :: rest
    | .eq => a :: rest
    | .gt => b :: place key a rest

/-- What a list holds after `place` was there before, except for the new
element. -/
theorem mem_place {a c : α} {elements : List α}
    (member : c ∈ place key a elements) :
    c = a ∨ c ∈ elements := by
  induction elements with
  | nil => simpa [place] using member
  | cons b rest induction =>
    simp only [place] at member
    split at member
    · simpa using member
    · rcases List.mem_cons.mp member with same | later
      · exact .inl same
      · exact .inr (List.mem_cons_of_mem b later)
    · rcases List.mem_cons.mp member with same | later
      · exact .inr (same ▸ List.mem_cons_self)
      · exact (induction later).imp_right (List.mem_cons_of_mem b)

variable [Std.TransOrd κ]

theorem place_ascending (a : α) {elements : List α}
    (ascending : elements.Pairwise fun b c => compare (key b) (key c) = .lt) :
    (place key a elements).Pairwise fun b c =>
      compare (key b) (key c) = .lt := by
  induction elements with
  | nil => simp [place]
  | cons b rest induction =>
    obtain ⟨below, restAscending⟩ := List.pairwise_cons.mp ascending
    simp only [place]
    split
    next less =>
      refine List.pairwise_cons.mpr ⟨fun c member => ?_, ascending⟩
      rcases List.mem_cons.mp member with same | later
      · exact same ▸ less
      · exact Std.TransCmp.lt_trans less (below c later)
    next equal =>
      refine List.pairwise_cons.mpr ⟨fun c member => ?_, restAscending⟩
      exact Std.TransCmp.lt_of_eq_of_lt equal (below c member)
    next greater =>
      refine List.pairwise_cons.mpr
        ⟨fun c member => ?_, induction restAscending⟩
      rcases mem_place member with same | later
      · exact same ▸ Std.OrientedCmp.lt_of_gt greater
      · exact below c later

/-- Adds an element, in place of the one with its key. -/
def put (s : Ascending key) (a : α) : Ascending key :=
  ⟨place key a s.toList, place_ascending a s.ascending⟩

/-- The collection of the elements of a list; of those with one key the last
stays. -/
def ofList (elements : List α) : Ascending key := elements.foldl put empty

end Ascending

end CircuitSections
