import CircuitSections.Circuit.Signal
import CircuitSections.Ordered.Lookup

/-!
# Signal stores

A store holds a count for each of finitely many signals.  Counts wrap at
thirty-two bits, and a count of zero is never kept: a signal that cancels out is
the same as one that was never there.
-/

namespace CircuitSections

/-- The counts of finitely many signals, none of them zero. -/
structure SignalStore where
  /-- Signals and counts in ascending order of the signals. -/
  entries : Ascending fun entry : Signal × Int32 => entry.1
  /-- A signal that is kept has a count. -/
  nonzero : ∀ entry ∈ entries.toList, entry.2 ≠ 0

namespace SignalStore

@[ext]
theorem ext {s t : SignalStore} (equal : s.entries = t.entries) : s = t := by
  cases s
  cases t
  cases equal
  rfl

instance : DecidableEq SignalStore := fun s t =>
  decidable_of_iff (s.entries = t.entries) ⟨ext, fun equal => equal ▸ rfl⟩

def empty : SignalStore := ⟨.empty, fun _ member => nomatch member⟩

instance : Inhabited SignalStore := ⟨empty⟩

/-- The signals and their counts, least signal first. -/
def toList (s : SignalStore) : List (Signal × Int32) := s.entries.toList

def size (s : SignalStore) : Nat := s.entries.size

def isEmpty (s : SignalStore) : Bool := s.entries.isEmpty

/-- The count of a signal, zero if it is absent. -/
def get (s : SignalStore) (signal : Signal) : Int32 :=
  match s.entries.find? signal with
  | some (_, count) => count
  | none => 0

/-- Gives a signal a count. -/
def set (s : SignalStore) (signal : Signal) (count : Int32) : SignalStore :=
  if zero : count = 0 then
    ⟨s.entries.erase signal, fun entry member =>
      s.nonzero entry (List.filter_sublist.mem member)⟩
  else
    ⟨s.entries.put (signal, count), fun entry member => by
      rcases Ascending.mem_place member with same | old
      · exact same ▸ zero
      · exact s.nonzero entry old⟩

/-- Adds to the count of a signal, wrapping at thirty-two bits. -/
def add (s : SignalStore) (signal : Signal) (delta : Int32) : SignalStore :=
  s.set signal (s.get signal + delta)

def addAll (s : SignalStore) (entries : List (Signal × Int32)) : SignalStore :=
  entries.foldl (fun s (signal, count) => s.add signal count) s

/-- The store to which a list of signals and counts adds up. -/
def ofList (entries : List (Signal × Int32)) : SignalStore :=
  empty.addAll entries

def absorb (s t : SignalStore) : SignalStore := s.addAll t.toList

/-- The sum of two stores, signal by signal. -/
def merge (s t : SignalStore) : SignalStore := s.absorb t

/-- The sum of the counts of all qualities of a signal. -/
def countAnyQuality (s : SignalStore) (base : BaseSignal) : Int32 :=
  s.toList.foldl (fun sum (signal, count) =>
    if signal.hasBase base then sum + count else sum) 0

/-! ### Counts -/

theorem mem_toList {s : SignalStore} {signal : Signal} {count : Int32} :
    (signal, count) ∈ s.toList ↔ s.get signal = count ∧ count ≠ 0 := by
  constructor
  · intro member
    have found : s.entries.find? signal = some (signal, count) :=
      Ascending.find?_key member
    exact ⟨by simp [get, found], s.nonzero _ member⟩
  · rintro ⟨counted, notZero⟩
    cases found : s.entries.find? signal with
    | none =>
      simp only [get, found] at counted
      exact absurd counted.symm notZero
    | some entry =>
      simp only [get, found] at counted
      obtain ⟨member, equal⟩ := Ascending.find?_eq_some_iff.mp found
      cases Std.LawfulEqOrd.eq_of_compare equal
      exact counted ▸ member

@[simp]
theorem get_empty (signal : Signal) : empty.get signal = 0 := rfl

theorem get_set (s : SignalStore) (signal other : Signal) (count : Int32) :
    (s.set signal count).get other = if signal = other then count
      else s.get other := by
  simp only [set]
  split
  next zero =>
    simp only [get, Ascending.find?_erase, Std.LawfulEqOrd.compare_eq_iff_eq]
    by_cases same : signal = other <;> simp [same, zero]
  next =>
    simp only [get, Ascending.find?_put, Std.LawfulEqOrd.compare_eq_iff_eq]
    by_cases same : signal = other <;> simp [same]

theorem get_add (s : SignalStore) (signal other : Signal) (delta : Int32) :
    (s.add signal delta).get other =
      if signal = other then s.get signal + delta else s.get other :=
  get_set s signal other _

theorem ext_get {s t : SignalStore}
    (same : ∀ signal, s.get signal = t.get signal) : s = t := by
  refine ext (Ascending.ext_find? fun signal => ?_)
  ext ⟨other, count⟩
  rw [Ascending.find?_eq_some_iff, Ascending.find?_eq_some_iff]
  refine and_congr_left fun _ => ?_
  exact mem_toList.trans ((same other) ▸ mem_toList.symm)

end SignalStore

end CircuitSections
