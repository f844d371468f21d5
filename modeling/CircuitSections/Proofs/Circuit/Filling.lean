import CircuitSections.Proofs.Circuit.Counts
import Mathlib.Data.Set.Card

/-!
# How stores are filled

A store is a count for every signal that is zero for all but finitely many, and
nothing else.  Whatever the steps are that fill it, it counts what they say
(`Filling.get_store`), and as no zero is kept, its entries, its size and its
equality follow from the counts (`counts_get`).  The laws of sums are those of
the counts, signal by signal.
-/

namespace CircuitSections

namespace SignalStore

/-- A store counts as a function does: it keeps an entry for each signal with a
count, and no other. -/
structure Counts (s : SignalStore) (counts : Signal → Int32) : Prop where
  get : s.get = counts
  entries : ∀ signal count, (signal, count) ∈ s.toList ↔
    counts signal = count ∧ count ≠ 0
  finite : (Function.support counts).Finite
  size : s.size = (Function.support counts).ncard
  isEmpty : s.isEmpty = true ↔ ∀ signal, counts signal = 0

/-- The signals that a store keeps. -/
def signals (s : SignalStore) : List Signal := s.toList.map Prod.fst

theorem mem_signals {s : SignalStore} {signal : Signal} :
    signal ∈ s.signals ↔ s.get signal ≠ 0 := by
  constructor
  · intro kept
    obtain ⟨entry, listed, rfl⟩ := List.mem_map.mp kept
    obtain ⟨counted, nonzero⟩ := mem_toList.mp listed
    rw [counted]
    exact nonzero
  · intro counted
    exact List.mem_map.mpr
      ⟨(signal, s.get signal), mem_toList.mpr ⟨rfl, counted⟩, rfl⟩

theorem signals_nodup (s : SignalStore) : s.signals.Nodup :=
  s.entries.keys_nodup

theorem support_get (s : SignalStore) :
    Function.support s.get = (s.signals.toFinset : Set Signal) := by
  ext signal
  rw [Function.mem_support, ← mem_signals, Finset.mem_coe, List.mem_toFinset]

theorem counts_get (s : SignalStore) : s.Counts s.get where
  get := rfl
  entries _ _ := mem_toList
  finite := by
    rw [support_get]
    exact Finset.finite_toSet _
  size := by
    rw [support_get, Set.ncard_coe_finset,
      List.toFinset_card_of_nodup s.signals_nodup, signals, List.length_map]
    rfl
  isEmpty := by
    have none : s.isEmpty = true ↔ s.signals = [] := by
      rw [signals, List.map_eq_nil_iff]
      exact List.isEmpty_iff
    rw [none, List.eq_nil_iff_forall_not_mem]
    exact forall_congr' fun signal => by rw [mem_signals, not_not]

/-! ### Steps -/

/-- The steps by which a store comes about. -/
inductive Filling
  | new
  | set (before : Filling) (signal : Signal) (count : Int32)
  | add (before : Filling) (signal : Signal) (delta : Int32)
  | absorb (before other : Filling)
  | collect (entries : List (Signal × Int32))
  | merge (first second : Filling)
  | filtered (red green : Filling) (filter : Option ChannelFilter)

namespace Filling

/-- The store that comes about. -/
def store : Filling → SignalStore
  | .new => .empty
  | .set before signal count => before.store.set signal count
  | .add before signal delta => before.store.add signal delta
  | .absorb before other => before.store.absorb other.store
  | .collect entries => .ofList entries
  | .merge first second => first.store.merge second.store
  | .filtered red green filter =>
    Channels.through ⟨red.store, green.store⟩ (.ofUnset filter)

/-- What the steps say of the counts, where a step changes the count of one
signal or adds up counts. -/
def counts : Filling → Signal → Int32
  | .new => 0
  | .set before signal count => Function.update before.counts signal count
  | .add before signal delta =>
    Function.update before.counts signal (before.counts signal + delta)
  | .absorb before other => before.counts + other.counts
  | .collect entries => added entries
  | .merge first second => first.counts + second.counts
  | .filtered red green filter =>
    (if (ChannelFilter.ofUnset filter).reads .red then red.counts else 0) +
      if (ChannelFilter.ofUnset filter).reads .green then green.counts else 0

end Filling

theorem get_set_eq_update (s : SignalStore) (signal : Signal) (count : Int32) :
    (s.set signal count).get = Function.update s.get signal count := by
  funext other
  rw [get_set, Function.update_apply]
  exact if_congr eq_comm rfl rfl

theorem get_add_eq_update (s : SignalStore) (signal : Signal) (delta : Int32) :
    (s.add signal delta).get =
      Function.update s.get signal (s.get signal + delta) :=
  s.get_set_eq_update signal _

theorem Filling.get_store (filling : Filling) :
    filling.store.get = filling.counts := by
  induction filling with
  | new => rfl
  | set before signal count ih => rw [store, counts, get_set_eq_update, ih]
  | add before signal delta ih => rw [store, counts, get_add_eq_update, ih]
  | absorb before other ih ihOther =>
      rw [store, counts, ← ih, ← ihOther]
      exact funext (get_merge _ _)
  | collect entries => exact funext (get_ofList entries)
  | merge first second ih ihSecond =>
      rw [store, counts, ← ih, ← ihSecond]
      exact funext (get_merge _ _)
  | filtered red green filter ih ihGreen =>
      funext signal
      rw [store, Channels.get_through, Channels.total, counts, ← ih, ← ihGreen]
      simp only [Pi.add_apply,
        apply_ite (fun count : Signal → Int32 => count signal),
        Pi.zero_apply]

/-- Entries for different signals, one for each that has a count, bring about
the counts. -/
theorem added_listed {counts : Signal → Int32} {listed : List Signal}
    (once : listed.Nodup)
    (every : ∀ signal, signal ∈ listed ↔ counts signal ≠ 0) :
    added (listed.map fun signal => (signal, counts signal)) = counts := by
  funext signal
  by_cases zero : counts signal = 0
  · -- No entry names the signal.
    rw [zero]
    apply added_eq_zero
    intro count member
    obtain ⟨other, there, same⟩ := List.mem_map.mp member
    cases same
    exact (every signal).mp there zero
  · apply added_eq
    · exact List.pairwise_map.mpr once
    · exact List.mem_map.mpr ⟨signal, (every signal).mpr zero, rfl⟩

/-- Every count of finitely many signals is that of a store. -/
theorem exists_filling {counts : Signal → Int32}
    (finite : (Function.support counts).Finite) :
    ∃ filling : Filling, filling.counts = counts := by
  let listed := finite.toFinset.toList
  refine ⟨.collect (listed.map fun signal => (signal, counts signal)), ?_⟩
  apply added_listed (Finset.nodup_toList _)
  intro signal
  rw [Finset.mem_toList, Set.Finite.mem_toFinset, Function.mem_support]

/-! ### Sums -/

theorem merge_comm (s t : SignalStore) : s.merge t = t.merge s := by
  apply ext_get
  intro signal
  rw [get_merge, get_merge, add_comm]

theorem merge_assoc (s t u : SignalStore) : (s.merge t).merge u =
    s.merge (t.merge u) := by
  apply ext_get
  intro signal
  rw [get_merge, get_merge, get_merge, get_merge, add_assoc]

theorem merge_empty (s : SignalStore) : s.merge .empty = s := rfl

theorem ofList_perm {entries other : List (Signal × Int32)}
    (order : entries.Perm other) :
    ofList entries = ofList other := by
  apply ext_get
  intro signal
  rw [get_ofList, get_ofList, added, added]
  exact ((order.filter _).map _).sum_eq

/-- A store is a count for every signal, zero for all but finitely many.
However it is filled, it keeps an entry for each signal with a count and for no
other, and every such function of the signals is what some store counts.  So
stores are equal as soon as they count alike, a change of one signal leaves the
others, and sums are taken signal by signal, with wrapping; neither their order
nor that of the entries that are collected matters. -/
theorem filled_stores_are_counts :
    (∀ filling : Filling, filling.store.Counts filling.counts) ∧
    (∀ counts : Signal → Int32, (Function.support counts).Finite →
      ∃ filling : Filling, filling.store.Counts counts) ∧
    (∀ s t : SignalStore, s = t ↔ ∀ signal, s.get signal = t.get signal) ∧
    (∀ (s : SignalStore) signal count,
      (s.set signal count).get = Function.update s.get signal count) ∧
    (∀ (s : SignalStore) signal delta,
      (s.add signal delta).get =
        Function.update s.get signal (s.get signal + delta)) ∧
    (∀ s t : SignalStore, (s.merge t).get = s.get + t.get) ∧
    (∀ s t : SignalStore, s.merge t = t.merge s) ∧
    (∀ s t u : SignalStore, (s.merge t).merge u = s.merge (t.merge u)) ∧
    (∀ s : SignalStore, s.merge .empty = s ∧ empty.merge s = s) ∧
    (∀ s t : SignalStore, s.absorb t = s.merge t) ∧
    ∀ entries other : List (Signal × Int32), entries.Perm other →
      ofList entries = ofList other := by
  have filled (filling : Filling) : filling.store.Counts filling.counts := by
    rw [← filling.get_store]
    exact counts_get filling.store
  refine ⟨filled, ?_, ?_, get_set_eq_update, get_add_eq_update, ?_, merge_comm,
    merge_assoc, ?_, fun _ _ => rfl, fun _ _ => ofList_perm⟩
  · intro counts finite
    obtain ⟨filling, rfl⟩ := exists_filling finite
    exact ⟨filling, filled filling⟩
  · intro s t
    exact ⟨fun same signal => by rw [same], ext_get⟩
  · intro s t
    exact funext (get_merge s t)
  · intro s
    exact ⟨merge_empty s, (merge_comm empty s).trans (merge_empty s)⟩

/-- Iron that cancels out over two entries on the red channel, and gears that
overflow on both together. -/
def Filling.cancelling : Filling :=
  .filtered
    (.collect [(.ofName .item "iron", 5), (.ofName .item "gear", 2147483647),
      (.ofName .item "iron", -5)])
    (.add (.set .new (.ofName .item "gear") 3) (.ofName .item "gear") (-2)) none

theorem filled_stores_are_counts_cancelling :
    let iron := Signal.ofName .item "iron"
    let gear := Signal.ofName .item "gear"
    Filling.cancelling.store.get gear = -2147483648 ∧
      (∀ count, (iron, count) ∉ Filling.cancelling.store.toList) ∧
      (∃ filling : Filling, filling.store.Counts (Function.update 0 iron 7)) ∧
      ofList [(iron, 5), (gear, 1), (iron, -5)] =
        ofList [(iron, -5), (iron, 5), (gear, 1)] := by
  intro iron gear
  obtain ⟨filled, counted, _, _, _, _, _, _, _, _, ordered⟩ :=
    filled_stores_are_counts
  refine ⟨?_, ?_, counted _ ?_, ordered _ _ (by decide +kernel)⟩
  · rw [(filled .cancelling).get]
    decide +kernel
  · intro count listed
    obtain ⟨same, nonzero⟩ :=
      ((filled .cancelling).entries iron count).mp listed
    rw [← same] at nonzero
    exact nonzero (by decide +kernel)
  · apply (Set.finite_singleton iron).subset
    intro signal counted
    apply Decidable.byContradiction
    intro other
    rw [Function.mem_support, Function.update_of_ne other] at counted
    exact counted rfl

end SignalStore

end CircuitSections
