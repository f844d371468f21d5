import CircuitSections.Proofs.Host.Access
import CircuitSections.Proofs.Run.Accounting

/-!
# Orderly scenes

Where combinators share no spec and wired targets are left alone, nobody gets in
the way of anybody: edits for one owner displace no entry and change nothing
that another owner has (`Edits.orderly`).  What every owner has is then a matter
of its own passes only.
-/

namespace CircuitSections

/-- Every tracked section is of a spec that its owner uses, on a wired target
that was left alone since; no entry was ever displaced, and wired targets accept
edits. -/
structure Orderly (used : CombinatorId → SpecKey → Prop)
    (wired : TargetId → Prop) (scene : Scene) : Prop where
  ofUser : ∀ entry ∈ scene.ledger.entries, used entry.owner entry.spec.key
  onWired : ∀ entry ∈ scene.ledger.entries, wired entry.target
  stands : ∀ entry ∈ scene.ledger.entries, entry.StandsIn scene.log
  undisplaced : scene.orphaned = []
  accepting : ∀ target, wired target → scene.host.Accepts target

namespace Orderly

variable {used : CombinatorId → SpecKey → Prop} {wired more : TargetId → Prop}
  {before after : Scene}

theorem of_fewer (orderly : Orderly used wired before) (notes : List Event)
    (kept : ∀ entry ∈ after.ledger.entries, entry ∈ before.ledger.entries)
    (log : after.log = before.log ++ notes)
    (untouched : ∀ entry ∈ after.ledger.entries,
      Event.cleared entry.target ∉ notes)
    (orphaned : after.orphaned = before.orphaned)
    (weaker : ∀ target, wired target → more target)
    (accepting : ∀ target, more target → after.host.Accepts target) :
    Orderly used more after := by
  constructor
  · intro entry member
    exact orderly.ofUser entry (kept entry member)
  · intro entry member
    exact weaker _ (orderly.onWired entry (kept entry member))
  · intro entry member
    rw [log]
    exact Since.append (orderly.stands entry (kept entry member))
      (untouched entry member)
  · rw [orphaned]
    exact orderly.undisplaced
  · exact accepting

/-- A place of a key that an owner uses is its own, or is free. -/
theorem owner_eq (orderly : Orderly used wired before)
    (sole : ∀ a b key, used a key → used b key → a = b) {owner : CombinatorId}
    {entry : TrackedSection} {target : TargetId} {key : SpecKey}
    (member : entry ∈ before.ledger.entries)
    (place : entry.place = ⟨target, key⟩) (uses : used owner key) :
    entry.owner = owner := by
  have known := orderly.ofUser entry member
  rw [(SlotKey.mk.inj place).2] at known
  exact sole entry.owner owner key known uses

/-- Order is kept where a section is added that its owner uses, in a free
place. -/
theorem inject {owner : CombinatorId} {tick : UInt64} {target : TargetId}
    {spec : SectionSpec} {handle : SectionHandle} {host : MemoryHost}
    (orderly : Orderly used wired before) (listed : wired target)
    (uses : used owner spec.key) (free : before.ledger.get? target spec = none)
    (added : before.host.addSection target spec = (.ok handle, host)) :
    Orderly used wired
      { ledger := (before.ledger.record ⟨target, spec, owner, handle, tick⟩).2
        host
        log := before.log ++ [.created (.pass owner) ⟨target, handle, spec⟩]
        orphaned := before.orphaned ++
          (before.ledger.get? target spec).toList } where
  ofUser entry member := by
    rcases Ledger.mem_record.mp member with rfl | ⟨old, _⟩
    · exact uses
    · exact orderly.ofUser entry old
  onWired entry member := by
    rcases Ledger.mem_record.mp member with rfl | ⟨old, _⟩
    · exact listed
    · exact orderly.onWired entry old
  stands entry member := by
    rcases Ledger.mem_record.mp member with rfl | ⟨old, _⟩
    · exact Since.last
    · exact Since.append (orderly.stands entry old) (by simp)
  undisplaced := by simp [orderly.undisplaced, free]
  accepting other known := (MemoryHost.accepts_addSection added other).mpr
    (orderly.accepting other known)

/-- An edit for one owner keeps order, and leaves to the others what they
have. -/
theorem edit {owner : CombinatorId} {tick : UInt64}
    {wanted : TargetId → SectionSpec → Prop}
    (edit : Edit owner tick wanted before after)
    (sole : ∀ a b key, used a key → used b key → a = b)
    (wants : ∀ target spec, wanted target spec → wired target ∧
      used owner spec.key)
    (orderly : Orderly used wired before) :
    Orderly used wired after ∧ ∀ other target key, other ≠ owner →
      (after.ledger.Owns other target key ↔
        before.ledger.Owns other target key) := by
  cases edit with
  | @drop target gone =>
      refine ⟨?_, fun other place key apart =>
        Ledger.owns_forgetOwnedOn_of_ne apart⟩
      refine orderly.of_fewer [] ?_ (by simp)
        (by simp) rfl (fun _ known => known)
        orderly.accepting
      exact fun entry member => (Ledger.mem_forgetOwnedOn.mp member).1
  | @remove target spec entry host found owned removed =>
      refine ⟨?_, fun other place key apart =>
        Ledger.owns_forget_of_ne found (owned ▸ apart)⟩
      refine orderly.of_fewer [] ?_ (by simp)
        (by simp) rfl (fun _ known => known) ?_
      · exact fun entry member => (Ledger.mem_forget.mp member).1
      · intro target known
        exact (MemoryHost.accepts_removeSection removed target).mpr
          (orderly.accepting target known)
  | lose found owned _ =>
      refine ⟨?_, fun other place key apart =>
        Ledger.owns_forget_of_ne found (owned ▸ apart)⟩
      refine orderly.of_fewer [] ?_ (by simp)
        (by simp) rfl (fun _ known => known)
        orderly.accepting
      exact fun entry member => (Ledger.mem_forget.mp member).1
  | @inject target spec handle host want absent added =>
      obtain ⟨listed, uses⟩ := wants target spec want
      have free : before.ledger.get? target spec = none := by
        refine Ledger.get?_eq_none_iff.mpr fun entry member place => absent ?_
        exact ⟨entry, member, orderly.owner_eq sole member place uses, place⟩
      exact ⟨orderly.inject listed uses free added,
        fun other place key apart => Ledger.owns_record_of_ne free apart⟩

end Orderly

/-- Edits for one owner keep order, and leave to the others what they have. -/
theorem Edits.orderly {used : CombinatorId → SpecKey → Prop}
    {wired : TargetId → Prop} {owner : CombinatorId} {tick : UInt64}
    {wanted : TargetId → SectionSpec → Prop} {before after : Scene}
    (edits : Edits owner tick wanted before after)
    (sole : ∀ a b key, used a key → used b key → a = b)
    (wants : ∀ target spec, wanted target spec → wired target ∧
      used owner spec.key)
    (orderly : Orderly used wired before) :
    Orderly used wired after ∧ ∀ other target key, other ≠ owner →
      (after.ledger.Owns other target key ↔
        before.ledger.Owns other target key) := by
  induction edits with
  | refl => exact ⟨orderly, fun _ _ _ _ => Iff.rfl⟩
  | tail _ edit induction =>
      obtain ⟨orderlyMid, sameMid⟩ := induction
      obtain ⟨orderlyAfter, sameAfter⟩ :=
        Orderly.edit edit sole wants orderlyMid
      refine ⟨orderlyAfter, fun other target key apart => ?_⟩
      exact (sameAfter other target key apart).trans
        (sameMid other target key apart)

/-- Edits leave the channels and the wiring of the host alone. -/
theorem Edits.frame {owner : CombinatorId} {tick : UInt64}
    {wanted : TargetId → SectionSpec → Prop} {before after : Scene}
    (edits : Edits owner tick wanted before after) :
    after.host.channels = before.host.channels ∧ after.host.wiring =
      before.host.wiring := by
  induction edits with
  | refl => exact ⟨rfl, rfl⟩
  | tail _ edit induction =>
      cases edit with
      | drop _ => exact induction
      | remove _ _ removed =>
          obtain ⟨_, wiring, channels⟩ := MemoryHost.removeSection_frame removed
          exact ⟨channels.trans induction.1, wiring.trans induction.2⟩
      | lose _ _ _ => exact induction
      | inject _ _ added =>
          obtain ⟨state, _, made⟩ := MemoryHost.addSection_ok added
          obtain ⟨_, rfl⟩ := Prod.mk.inj made
          exact induction

end CircuitSections
