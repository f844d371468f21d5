import CircuitSections.Proofs.Combinator.Contents

/-!
# The footprint of a pass

A pass looks at the places of the ledger that its combinator has or aims at, and
leaves the others alone.  On a ledger and a host that are the same there it
comes to the same report, the same combinator, and the same at these places up
to the handles of new sections.
-/

namespace CircuitSections

namespace Combinator

/-- The targets that the next pass of the combinator uses. -/
def targetsOn (combinator : Combinator) (host : MemoryHost) : List TargetId :=
  combinator.wiredOr (host.wiring combinator.id)

/-- What the combinator desires when its rules are stepped on the channels of
the host. -/
def desiredOn (combinator : Combinator) (tick : UInt64)
    (host : MemoryHost) : SpecSet :=
  (combinator.stepped tick (host.channels combinator.id)
    (host.wiring combinator.id)).desired

/-- The next pass goes for a section at the place. -/
def Aims (combinator : Combinator) (tick : UInt64) (host : MemoryHost)
    (place : SlotKey) : Prop :=
  place.target ∈ combinator.targetsOn host ∧
    (combinator.desiredOn tick host).contains place.spec = true

/-- The place is one that the next pass looks at. -/
def Touches (combinator : Combinator) (tick : UInt64) (ledger : Ledger)
    (host : MemoryHost) (place : SlotKey) : Prop :=
  ledger.Owns combinator.id place.target place.spec ∨
    combinator.Aims tick host place

instance (combinator : Combinator) (tick : UInt64)
    (channels : Channel → SignalStore) (targets : List TargetId) :
    Decidable (combinator.Quiet tick channels targets) :=
  inferInstanceAs (Decidable (_ ∧ _ ∧ _))

instance (combinator : Combinator) (tick : UInt64) (host : MemoryHost)
    (place : SlotKey) :
    Decidable (combinator.Aims tick host place) :=
      inferInstanceAs (Decidable (_ ∧ _))

instance (combinator : Combinator) (tick : UInt64) (ledger : Ledger)
    (host : MemoryHost) (place : SlotKey) :
    Decidable (combinator.Touches tick ledger host place) :=
  inferInstanceAs (Decidable (_ ∨ _))

/-- What a pass leaves at a place, with a handle for what is new. -/
def leaves (combinator : Combinator) (tick : UInt64) (host : MemoryHost)
    (handle : SectionHandle) (place : SlotKey)
    (there : Option (SectionSpec × TrackedSection)) :
    Option (SectionSpec × TrackedSection) :=
  if combinator.Quiet tick (host.channels combinator.id)
    (host.wiring combinator.id) then there
  else
    Reconciliation.leaves (host.access place.target) combinator.id
      (due (combinator.targetsOn host) (combinator.desiredOn tick host)
        place.target) tick handle
      place there

variable {combinator : Combinator} {tick : UInt64} {ledger : Ledger}
  {host : MemoryHost}
  {place : SlotKey}

theorem at?_pass (combinator : Combinator) (tick : UInt64) (ledger : Ledger)
    (host : MemoryHost) (place : SlotKey) :
    ∃ handle, (combinator.pass tick ledger host).2.2.1.at? place =
      combinator.leaves tick host handle place (ledger.at? place) := by
  by_cases quiet : combinator.Quiet tick (host.channels combinator.id)
    (host.wiring combinator.id)
  · refine ⟨⟨0⟩, ?_⟩
    rw [pass_eq_of_quiet host.answers quiet, leaves, if_pos quiet]
  · obtain ⟨handle, left⟩ :=
      at?_reconcile combinator.id (combinator.targetsOn host)
        (combinator.desiredOn tick host) tick ledger host place
    refine ⟨handle, ?_⟩
    rw [pass_eq_of_not_quiet host.answers quiet, leaves, if_neg quiet]
    exact left

theorem pass_names (combinator : Combinator) (tick : UInt64) (ledger : Ledger)
    (host : MemoryHost) :
    (combinator.pass tick ledger host).1.combinator = combinator.id ∧
      (combinator.pass tick ledger host).1.tick = tick := by
  by_cases quiet : combinator.Quiet tick (host.channels combinator.id)
    (host.wiring combinator.id)
  · rw [pass_eq_of_quiet host.answers quiet]
    exact ⟨rfl, rfl⟩
  · rw [pass_eq_of_not_quiet host.answers quiet]
    exact ⟨rfl, rfl⟩

theorem access_pass (combinator : Combinator) (tick : UInt64) (ledger : Ledger)
    (host : MemoryHost) (target : TargetId) :
    (combinator.pass tick ledger host).2.2.2.access target =
      host.access target := by
  by_cases quiet : combinator.Quiet tick (host.channels combinator.id)
    (host.wiring combinator.id)
  · rw [pass_eq_of_quiet host.answers quiet]
  · rw [pass_eq_of_not_quiet host.answers quiet]
    exact (Reconciliation.access_targets _ _ _ _ _ _ _).trans
      (Reconciliation.access_targets _ _ _ _ _ _ _)

theorem leaves_untouched (handle : SectionHandle)
    (apart : ¬ combinator.Touches tick ledger host place) :
    combinator.leaves tick host handle place (ledger.at? place) =
      ledger.at? place := by
  obtain ⟨foreign, unaimed⟩ := not_or.mp apart
  unfold leaves
  split
  · rfl
  · rw [Ledger.owns_iff_at?, Bool.not_eq_true] at foreign
    apply Reconciliation.leaves_self foreign
    rw [Aims, ← contains_due_iff, Bool.not_eq_true,
      Ascending.contains] at unaimed
    exact Option.not_isSome_iff_eq_none.mp (by simp [unaimed])

theorem owner_leaves {handle : SectionHandle} {spelling : SectionSpec}
    {entry : TrackedSection} {there : Option (SectionSpec × TrackedSection)}
    (other : entry.owner ≠ combinator.id)
    (left : combinator.leaves tick host handle place there =
      some (spelling, entry)) :
    there.map Prod.snd = some entry := by
  have found : (combinator.leaves tick host handle place there).map Prod.snd =
      some entry := by
    rw [left]
    rfl
  unfold leaves at found
  split at found
  · exact found
  · exact ((Reconciliation.other_leaves other).mp found).1

theorem leaves_handles (once : (combinator.targetsOn host).Nodup)
    (tick : UInt64) (ledger : Ledger) (place : SlotKey) :
    (∀ handle another,
      combinator.leaves tick host handle place (ledger.at? place) =
        combinator.leaves tick host another place (ledger.at? place)) ∨
    ∃ spelling spec,
      (place.target, spec) ∈ (combinator.pass tick ledger host).1.injected ∧
      ∀ handle, combinator.leaves tick host handle place (ledger.at? place) =
        some (spelling, ⟨place.target, spec, combinator.id, handle, tick⟩) := by
  by_cases quiet : combinator.Quiet tick (host.channels combinator.id)
    (host.wiring combinator.id)
  · refine .inl fun handle another => ?_
    simp only [leaves, if_pos quiet]
  · have reports :=
      reconcile_reports once combinator.id (combinator.desiredOn tick host) tick
        ledger host
    simp only [leaves, if_neg quiet]
    rcases Reconciliation.leaves_handles (host.access place.target)
      combinator.id
        (due (combinator.targetsOn host) (combinator.desiredOn tick host)
          place.target) tick place
        (ledger.at? place) with alike |
          ⟨accepting, foreign, spec, wanted, key, spelling, left⟩
    · exact .inl alike
    · refine .inr ⟨spelling, spec, ?_, left⟩
      have listed : place.target ∈ combinator.targetsOn host :=
        (contains_due_iff.mp (Ascending.contains_of_mem wanted)).1
      rw [pass_eq_of_not_quiet host.answers quiet]
      refine (ReconcileReport.mem_injected reports fun _ =>
        Reconciliation.reportOn_target).mpr
        ⟨List.mem_append_left _ listed, ?_⟩
      rw [Reconciliation.mem_injected_reportOn, Ledger.owns_iff_at?, key]
      exact ⟨accepting, wanted, by simp [foreign]⟩

/-! ### Other ledgers and hosts -/

/-- To the combinator another ledger and host look the same. -/
structure Alike (combinator : Combinator) (tick : UInt64) (ledger : Ledger)
    (host : MemoryHost) (other : Ledger) (asked : MemoryHost) : Prop where
  channels : asked.channels = host.channels
  wiring : asked.wiring = host.wiring
  access : ∀ target, asked.access target = host.access target
  there : ∀ place, combinator.Touches tick ledger host place →
    other.at? place = ledger.at? place
  owned : ∀ place, other.Owns combinator.id place.target place.spec →
    combinator.Touches tick ledger host place

namespace Alike

variable {other : Ledger} {asked : MemoryHost}

theorem owns_iff (alike : combinator.Alike tick ledger host other asked)
    {target : TargetId} {key : SpecKey} :
    other.Owns combinator.id target key ↔
      ledger.Owns combinator.id target key := by
  constructor
  · intro owns
    have same := alike.there ⟨target, key⟩ (alike.owned ⟨target, key⟩ owns)
    rwa [Ledger.owns_iff_at?, same, ← Ledger.owns_iff_at?] at owns
  · intro owns
    have same := alike.there ⟨target, key⟩ (.inl owns)
    rwa [Ledger.owns_iff_at?, same, ← Ledger.owns_iff_at?]

theorem ownedSpecs (alike : combinator.Alike tick ledger host other asked)
    (target : TargetId) :
    other.ownedSpecs combinator.id target =
      ledger.ownedSpecs combinator.id target := by
  apply Ledger.ownedSpecs_congr
  intro key
  by_cases owns : ledger.Owns combinator.id target key
  · rw [alike.there ⟨target, key⟩ (.inl owns)]
  · have none {any : Ledger} (absent : ¬ any.Owns combinator.id target key) :
        (any.at? ⟨target, key⟩).filter
          (fun slot => slot.2.owner = combinator.id) = none := by
      rw [Ledger.owns_iff_at?] at absent
      cases found : any.at? ⟨target, key⟩ with
      | none => rfl
      | some slot =>
          exact Option.filter_some_neg (by simpa [found] using absent)
    rw [none owns, none (mt alike.owns_iff.mp owns)]

theorem leaves (alike : combinator.Alike tick ledger host other asked)
    (handle : SectionHandle) (place : SlotKey)
    (there : Option (SectionSpec × TrackedSection)) :
    combinator.leaves tick asked handle place there =
      combinator.leaves tick host handle place there := by
  simp only [Combinator.leaves, targetsOn, desiredOn, alike.channels,
    alike.wiring, alike.access]

theorem at?_pass (alike : combinator.Alike tick ledger host other asked)
    (place : SlotKey) :
    ∃ handle, (combinator.pass tick other asked).2.2.1.at? place =
      combinator.leaves tick host handle place (other.at? place) := by
  obtain ⟨handle, left⟩ := Combinator.at?_pass combinator tick other asked place
  exact ⟨handle, left.trans (alike.leaves handle place _)⟩

theorem untouched (alike : combinator.Alike tick ledger host other asked)
    (apart : ¬ combinator.Touches tick ledger host place) :
    (combinator.pass tick other asked).2.2.1.at? place = other.at? place := by
  obtain ⟨handle, left⟩ := alike.at?_pass place
  rw [left]
  exact leaves_untouched handle (mt (Or.imp_left alike.owns_iff.mp) apart)

theorem reconcile (alike : combinator.Alike tick ledger host other asked)
    (once : (combinator.targetsOn host).Nodup) :
    (Combinator.reconcile combinator.id (combinator.targetsOn host)
        (combinator.desiredOn tick host) tick other asked).1 =
        (Combinator.reconcile combinator.id (combinator.targetsOn host)
          (combinator.desiredOn tick host) tick ledger host).1 := by
  let wired := combinator.targetsOn host
  let desired := combinator.desiredOn tick host
  have sameUnwired : unwired other combinator.id wired =
      unwired ledger combinator.id wired := by
    apply Ascending.ext_mem
    intro target
    simp only [mem_unwired, alike.owns_iff]
  have reports := reconcile_reports once combinator.id desired tick ledger host
  have again := reconcile_reports once combinator.id desired tick other asked
  apply congrArg ReconcileReport.mk (again.trans (Eq.trans ?_ reports.symm))
  rw [sameUnwired]
  refine List.map_congr_left fun target _ => ?_
  rw [alike.access]
  apply Reconciliation.reportOn_congr _ (alike.ownedSpecs target)
  intro spec wanted
  have aimed : combinator.Aims tick host ⟨target, spec.key⟩ :=
    contains_due_iff.mp (Ascending.contains_of_mem wanted)
  rw [Ledger.get?_eq_at?, Ledger.get?_eq_at?, alike.there _ (.inr aimed)]

/-- The pass comes to the same report and the same combinator. -/
theorem pass (alike : combinator.Alike tick ledger host other asked)
    (once : (combinator.targetsOn host).Nodup) :
    (combinator.pass tick other asked).1 =
      (combinator.pass tick ledger host).1 ∧
      (combinator.pass tick other asked).2.1 =
        (combinator.pass tick ledger host).2.1 := by
  constructor
  · by_cases quiet : combinator.Quiet tick (host.channels combinator.id)
        (host.wiring combinator.id)
    · rw [pass_eq_of_quiet host.answers quiet]
      rw [← alike.channels, ← alike.wiring] at quiet
      rw [pass_eq_of_quiet asked.answers quiet]
    · rw [pass_eq_of_not_quiet host.answers quiet]
      rw [← alike.channels, ← alike.wiring] at quiet
      rw [pass_eq_of_not_quiet asked.answers quiet,
        alike.channels, alike.wiring]
      exact congrArg (PassReport.mk combinator.id tick _ _ ∘ some)
        (alike.reconcile once)
  · rw [pass_combinator asked.answers rfl, pass_combinator host.answers rfl,
      alike.channels, alike.wiring]

theorem gone (alike : combinator.Alike tick ledger host other asked)
    (once : (combinator.targetsOn host).Nodup) :
    (combinator.pass tick ledger host).1.gone other =
      (combinator.pass tick ledger host).1.gone ledger := by
  by_cases quiet : combinator.Quiet tick (host.channels combinator.id)
    (host.wiring combinator.id)
  · rw [pass_eq_of_quiet host.answers quiet]
    rfl
  · have reports :=
      reconcile_reports once combinator.id (combinator.desiredOn tick host) tick
        ledger host
    rw [pass_eq_of_not_quiet host.answers quiet]
    apply ReconcileReport.gone_congr
    intro report member spec removed
    have listed := reports ▸ member
    obtain ⟨target, _, rfl⟩ := List.mem_map.mp listed
    rw [Reconciliation.reportOn_target, Ledger.get?_eq_at?, Ledger.get?_eq_at?,
      alike.there _ (.inl (Reconciliation.owns_of_mem_removed removed))]

end Alike

end Combinator

end CircuitSections
