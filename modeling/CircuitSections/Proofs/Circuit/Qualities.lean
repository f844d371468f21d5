import CircuitSections.Proofs.Circuit.Filling

/-!
# Sums over qualities

The count of all qualities of a signal is the sum of the counts of the signals
of one base, in whichever order a store lists them (`countAnyQuality_eq_total`).
Stores are merged signal by signal, so these sums add up as the counts do:
nothing is lost where a quality cancels out and disappears, nor where a partial
sum wraps.
-/

namespace CircuitSections

theorem Signal.hasBase_iff {signal : Signal} {base : BaseSignal} :
    signal.hasBase base = true ↔ signal.base = base := by
  cases base
  simp [hasBase, Signal.base]

theorem BaseSignal.range_qualities (base : BaseSignal) :
    Set.range (fun quality => (⟨base.kind, base.name, quality⟩ : Signal)) =
      {signal | signal.base = base} := by
  ext signal
  constructor
  · intro listed
    obtain ⟨quality, rfl⟩ := listed
    rfl
  · intro based
    exact ⟨signal.quality,
      (SignalStore.eq_of_hasBase (Signal.hasBase_iff.mpr based)).symm⟩

namespace SignalStore

/-- The sum of the counts of the signals of a base. -/
noncomputable def total (counts : Signal → Int32) (base : BaseSignal) : Int32 :=
  ∑ᶠ signal ∈ {signal : Signal | signal.base = base}, counts signal

theorem countAnyQuality_eq_total (s : SignalStore) (base : BaseSignal) :
    s.countAnyQuality base = total s.get base := by
  have qualities : Function.Injective fun quality =>
      (⟨base.kind, base.name, quality⟩ : Signal) := by
    intro first second same
    exact congrArg Signal.quality same
  rw [countAnyQuality_eq, total, ← base.range_qualities,
    finsum_mem_range qualities]

theorem gathered_eq_total (s : SignalStore) {entries : List (Signal × Int32)}
    (order : entries.Perm s.toList) (base : BaseSignal) :
    gathered base entries = total s.get base := by
  rw [← countAnyQuality_eq_total, countAnyQuality_eq_sum, gathered_eq_sum]
  exact ((order.filter _).map _).sum_eq

/-! ### Merged stores -/

theorem total_add {counts others : Signal → Int32}
    (finite : (Function.support counts).Finite)
    (othersFinite : (Function.support others).Finite) (base : BaseSignal) :
    total (counts + others) base = total counts base + total others base :=
  finsum_mem_add_distrib' (finite.inter_of_right _)
    (othersFinite.inter_of_right _)

theorem countAnyQuality_merge (s t : SignalStore) (base : BaseSignal) :
    (s.merge t).countAnyQuality base =
      s.countAnyQuality base + t.countAnyQuality base := by
  have summed : (s.merge t).get = s.get + t.get := funext (get_merge s t)
  rw [countAnyQuality_eq_total, countAnyQuality_eq_total,
    countAnyQuality_eq_total, summed,
    total_add s.counts_get.finite t.counts_get.finite]

theorem add_eq_merge (s : SignalStore) (signal : Signal) (delta : Int32) :
    s.add signal delta = s.merge (empty.add signal delta) := by
  apply ext_get
  intro other
  rw [get_merge, get_add, get_add, get_empty, get_empty]
  by_cases same : signal = other
  · subst same
    simp
  · simp [same]

theorem countAnyQuality_single (signal : Signal) (delta : Int32)
    (base : BaseSignal) :
    (empty.add signal delta).countAnyQuality base = if signal.base =
      base then delta else 0 := by
  rw [countAnyQuality_eq]
  split
  next based =>
    -- Of the qualities of the base only that of the signal has a count.
    rw [finsum_eq_single _ signal.quality]
    · subst based
      have here :
          (⟨signal.base.kind, signal.base.name, signal.quality⟩ : Signal) =
            signal := rfl
      rw [here, get_add, if_pos rfl, get_empty, zero_add]
    · intro quality other
      rw [get_add, if_neg, get_empty]
      intro same
      exact other (congrArg Signal.quality same).symm
  next apart =>
    have none (quality : String) :
        (empty.add signal delta).get ⟨base.kind, base.name, quality⟩ = 0 := by
      rw [get_add, if_neg, get_empty]
      intro same
      exact apart (congrArg Signal.base same)
    simp only [none, finsum_zero]

theorem countAnyQuality_add (s : SignalStore) (signal : Signal) (delta : Int32)
    (base : BaseSignal) : (s.add signal delta).countAnyQuality base =
      s.countAnyQuality base + if signal.base = base then delta else 0 := by
  rw [add_eq_merge, countAnyQuality_merge, countAnyQuality_single]

end SignalStore

theorem Channels.countAnyQuality_through (channels : Channels)
    (filter : ChannelFilter) (base : BaseSignal) :
    (channels.through filter).countAnyQuality base =
      (if filter.reads .red then channels.red.countAnyQuality base else 0) +
        if filter.reads .green then channels.green.countAnyQuality base
          else 0 := by
  cases filter with
  | red => exact (add_zero _).symm
  | green => exact (zero_add _).symm
  | both => exact SignalStore.countAnyQuality_merge _ _ _
  | none => exact (add_zero _).symm

namespace SignalStore

/-- The count of all qualities of a signal is additive.  It is the sum over the
signals of the base, of which finitely many have a count, in whichever order the
entries come.  To add to a signal adds as much to the count of its base and
leaves those of the others; what is seen through a filter has the sum of the
counts of the channels that the filter reads; and merged stores have the sum of
their counts. -/
theorem quality_counts_add_up :
    (∀ (s : SignalStore) base,
      s.countAnyQuality base =
        ∑ᶠ signal ∈ {signal : Signal | signal.base = base}, s.get signal) ∧
    (∀ s : SignalStore, (Function.support s.get).Finite) ∧
    (∀ (s : SignalStore) (entries : List (Signal × Int32)) base,
      entries.Perm s.toList →
      gathered base entries = s.countAnyQuality base) ∧
    (∀ (s : SignalStore) signal delta,
      (s.add signal delta).countAnyQuality signal.base =
        s.countAnyQuality signal.base + delta) ∧
    (∀ (s : SignalStore) signal delta base, base ≠ signal.base →
      (s.add signal delta).countAnyQuality base = s.countAnyQuality base) ∧
    (∀ (red green : SignalStore) (filter : Option ChannelFilter) base,
      (Channels.through ⟨red, green⟩ (.ofUnset filter)).countAnyQuality base =
        (if (ChannelFilter.ofUnset filter).reads .red then red.countAnyQuality
          base else 0) +
          if (ChannelFilter.ofUnset filter).reads
            .green then green.countAnyQuality base else 0) ∧
    ∀ (s t : SignalStore) base,
      (s.merge t).countAnyQuality base =
        s.countAnyQuality base + t.countAnyQuality base := by
  refine ⟨countAnyQuality_eq_total, fun s => s.counts_get.finite,
    ?_, ?_, ?_, ?_, countAnyQuality_merge⟩
  · intro s entries base order
    rw [gathered_eq_total s order, countAnyQuality_eq_total]
  · intro s signal delta
    rw [countAnyQuality_add, if_pos rfl]
  · intro s signal delta base other
    rw [countAnyQuality_add, if_neg other.symm, add_zero]
  · intro red green filter base
    exact Channels.countAnyQuality_through ⟨red, green⟩ _ base

/-- Gears in two qualities: the normal ones cancel against the other store, and
the rare ones overflow on the way. -/
theorem quality_counts_add_up_cancelling :
    let gear := Signal.ofName .item "gear"
    let rare := gear.withQuality "rare"
    let s := ofList [(gear, 5), (rare, 2147483647)]
    let t := ofList [(gear, -5), (rare, 3)]
    (s.merge t).size = 1 ∧ (s.merge t).countAnyQuality gear.base = -2147483646 ∧
      s.countAnyQuality gear.base + t.countAnyQuality gear.base = -2147483646 ∧
      gathered gear.base [(rare, 2147483647), (gear, 5)] =
        s.countAnyQuality gear.base ∧
      (s.add rare 1).countAnyQuality gear.base =
        s.countAnyQuality gear.base + 1 ∧
      (s.add rare 1).countAnyQuality ⟨.fluid, "gear"⟩ =
        s.countAnyQuality ⟨.fluid, "gear"⟩ := by
  intro gear rare s t
  obtain ⟨_, _, ordered, added, kept, _, merged⟩ := quality_counts_add_up
  refine ⟨by decide +kernel, by decide +kernel, ?_, ?_, added s rare 1, ?_⟩
  · rw [← merged]
    decide +kernel
  · exact ordered s [(rare, 2147483647), (gear, 5)] gear.base
      (by decide +kernel)
  · exact kept s rare 1 ⟨.fluid, "gear"⟩ (by decide +kernel)

end SignalStore

end CircuitSections
