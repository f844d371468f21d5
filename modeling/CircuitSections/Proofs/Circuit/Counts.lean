import CircuitSections.Circuit.Channel
import CircuitSections.Proofs.Ordered.Keys
import Mathlib.Algebra.BigOperators.Finprod

/-!
# Counts of stores

What a store was filled with adds up signal by signal, at thirty-two bits, so
neither the order nor the steps of filling matter; and what an operand sees of
the channels, and the sum over the qualities of a signal, are sums of counts.
-/

namespace CircuitSections

/-- Counts are added with wrapping. -/
instance wrappingSums : AddCommMonoid Int32 where
  add_assoc := Int32.add_assoc
  zero_add := Int32.zero_add
  add_zero := Int32.add_zero
  add_comm := Int32.add_comm
  nsmul := nsmulRec

namespace SignalStore

/-- What a list adds to the count of a signal. -/
def added (entries : List (Signal × Int32)) (signal : Signal) : Int32 :=
  ((entries.filter fun entry => entry.1 = signal).map Prod.snd).sum

theorem get_addAll (s : SignalStore) (entries : List (Signal × Int32))
    (signal : Signal) :
    (s.addAll entries).get signal = s.get signal + added entries signal := by
  induction entries generalizing s with
  | nil => exact (add_zero _).symm
  | cons entry rest ih =>
      obtain ⟨other, count⟩ := entry
      have first : (s.addAll ((other, count) :: rest)).get signal =
          (s.add other count).get signal + added rest signal :=
            ih (s.add other count)
      rw [first, get_add]
      by_cases same : other = signal
      · subst same
        simp [added, add_assoc]
      · simp [added, same]

/-- A list of entries for different signals adds each its own count. -/
theorem added_eq {entries : List (Signal × Int32)}
    (apart : entries.Pairwise fun a b => a.1 ≠ b.1) {signal : Signal}
    {count : Int32} (member : (signal, count) ∈ entries) :
    added entries signal = count := by
  induction entries with
  | nil => cases member
  | cons first rest ih =>
      obtain ⟨others, restApart⟩ := List.pairwise_cons.mp apart
      rcases List.mem_cons.mp member with rfl | later
      · have none : rest.filter (fun entry => entry.1 = signal) = [] := by
          apply List.filter_eq_nil_iff.mpr
          intro entry listed same
          exact others entry listed (of_decide_eq_true same).symm
        simp [added, none]
      · have other : first.1 ≠ signal := others _ later
        have same : added (first :: rest) signal = added rest signal := by
          simp [added, other]
        rw [same, ih restApart later]

theorem added_eq_zero {entries : List (Signal × Int32)} {signal : Signal}
    (absent : ∀ count, (signal, count) ∉ entries) :
    added entries signal = 0 := by
  have none : entries.filter (fun entry => entry.1 = signal) = [] := by
    apply List.filter_eq_nil_iff.mpr
    intro entry listed same
    obtain ⟨other, count⟩ := entry
    cases of_decide_eq_true same
    exact absent count listed
  simp [added, none]

theorem added_toList (s : SignalStore) (signal : Signal) :
    added s.toList signal = s.get signal := by
  by_cases zero : s.get signal = 0
  · rw [zero]
    apply added_eq_zero
    intro count listed
    obtain ⟨counted, nonzero⟩ := mem_toList.mp listed
    exact nonzero (counted ▸ zero)
  · exact added_eq (Ascending.keys_apart s.entries) (mem_toList.mpr ⟨rfl, zero⟩)

theorem get_merge (s t : SignalStore) (signal : Signal) :
    (s.merge t).get signal = s.get signal + t.get signal := by
  rw [merge, absorb, get_addAll, added_toList]

theorem get_ofList (entries : List (Signal × Int32)) (signal : Signal) :
    (ofList entries).get signal = added entries signal := by
  rw [ofList, get_addAll, get_empty, zero_add]

/-! ### Qualities -/

/-- The entries of the qualities of a signal. -/
def ofBase (s : SignalStore) (base : BaseSignal) : List (Signal × Int32) :=
  s.toList.filter fun entry => entry.1.hasBase base

/-- The quality sum of entries in the order in which they come. -/
def gathered (base : BaseSignal) (entries : List (Signal × Int32)) : Int32 :=
  entries.foldl (fun sum (signal, count) =>
    if signal.hasBase base then sum + count else sum) 0

theorem gathered_eq_sum (base : BaseSignal) (entries : List (Signal × Int32)) :
    gathered base entries =
      ((entries.filter fun entry => entry.1.hasBase base).map
        Prod.snd).sum := by
  have running (start : Int32) :
      entries.foldl (fun sum entry => if entry.1.hasBase base then sum + entry.2
        else sum) start =
          start +
            ((entries.filter fun entry => entry.1.hasBase base).map
              Prod.snd).sum := by
    induction entries generalizing start with
    | nil => exact (add_zero _).symm
    | cons entry rest ih =>
        rw [List.foldl_cons, ih]
        cases bases : entry.1.hasBase base <;> simp [bases, add_assoc]
  exact (running 0).trans (zero_add _)

theorem countAnyQuality_eq_sum (s : SignalStore) (base : BaseSignal) :
    s.countAnyQuality base = ((s.ofBase base).map Prod.snd).sum :=
  gathered_eq_sum base s.toList

theorem eq_of_hasBase {signal : Signal} {base : BaseSignal}
    (bases : signal.hasBase base = true) :
    signal = ⟨base.kind, base.name, signal.quality⟩ := by
  obtain ⟨kind, name, quality⟩ := signal
  obtain ⟨kinds, names⟩ := (Bool.and_eq_true _ _).mp bases
  cases of_decide_eq_true kinds
  cases of_decide_eq_true names
  rfl

theorem qualities_nodup (s : SignalStore) (base : BaseSignal) :
    ((s.ofBase base).map fun entry => entry.1.quality).Nodup := by
  apply List.pairwise_map.mpr
  have apart : (s.ofBase base).Pairwise fun a b => a.1 ≠ b.1 :=
    (Ascending.keys_apart s.entries).filter _
  apply apart.imp_of_mem
  intro a b aKept bKept different same
  apply different
  rw [eq_of_hasBase (List.mem_filter.mp aKept).2,
    eq_of_hasBase (List.mem_filter.mp bKept).2, same]

/-- The quality sum runs over every quality that there could be. -/
theorem countAnyQuality_eq (s : SignalStore) (base : BaseSignal) :
    s.countAnyQuality base = ∑ᶠ quality,
      s.get ⟨base.kind, base.name, quality⟩ := by
  let qualities := (s.ofBase base).map fun entry => entry.1.quality
  have covered :
      Function.support (fun quality => s.get ⟨base.kind, base.name, quality⟩) ⊆
      (qualities.toFinset : Set String) := by
    intro quality counted
    have kept : (⟨base.kind, base.name, quality⟩, _) ∈ s.toList :=
      mem_toList.mpr ⟨rfl, counted⟩
    have picked : (⟨base.kind, base.name, quality⟩, _) ∈ s.ofBase base :=
      List.mem_filter.mpr ⟨kept, by simp [Signal.hasBase]⟩
    exact List.mem_toFinset.mpr (List.mem_map.mpr ⟨_, picked, rfl⟩)
  have counts : (s.ofBase base).map Prod.snd =
      qualities.map fun quality => s.get ⟨base.kind, base.name, quality⟩ := by
    rw [List.map_map]
    apply List.map_congr_left
    intro entry member
    obtain ⟨kept, based⟩ := List.mem_filter.mp member
    rw [Function.comp_apply, ← eq_of_hasBase based]
    exact (mem_toList.mp kept).1.symm
  rw [countAnyQuality_eq_sum, finsum_eq_sum_of_support_subset _ covered,
    List.sum_toFinset _ (s.qualities_nodup base), counts]

end SignalStore

/-- The total of a signal over the channels that a filter reads. -/
def Channels.total (channels : Channels) (filter : ChannelFilter)
    (signal : Signal) : Int32 :=
  (if filter.reads .red then channels.red.get signal else 0) +
    if filter.reads .green then channels.green.get signal else 0

theorem Channels.get_through (channels : Channels) (filter : ChannelFilter)
    (signal : Signal) :
    (channels.through filter).get signal = channels.total filter signal := by
  cases filter with
  | red => exact (add_zero _).symm
  | green => exact (zero_add _).symm
  | both => exact SignalStore.get_merge _ _ _
  | none => exact (add_zero _).symm

end CircuitSections
