import CircuitSections.Proofs.Circuit.Counts
import CircuitSections.Proofs.Condition.RightSides

/-!
# What a condition means

A valid condition is a formula over the totals of the signals on the channels
that its operands read.  Stores do not occur in the formula, so a condition sees
neither how they were filled nor the difference between a signal that cancels
out and one that is not there.
-/

namespace CircuitSections

/-- The quantity that a named signal stands for: its own total, or that of all
its qualities. -/
noncomputable def quantity (total : Signal → Int32) (s : Signal)
    (anyQuality : Bool) : Int32 :=
  if anyQuality then ∑ᶠ quality, total (s.withQuality quality) else total s

/-- The value of a right side at a signal.  Only `each` has values that
differ. -/
noncomputable def Operand.valueAt (operand : Operand) (channels : Channels)
    (s : Signal) : Int32 :=
  match operand with
  | .constant value => value
  | .signal operand =>
    match operand.selector with
    | .signal named =>
      quantity (channels.total operand.channels) named operand.anyQuality
    | _ => channels.total operand.channels s

/-- The relation of two numbers that a comparator stands for. -/
def Comparator.Relates : Comparator → ℤ → ℤ → Prop
  | .less, left, right => left < right
  | .greater, left, right => left > right
  | .equal, left, right => left = right
  | .notEqual, left, right => left ≠ right
  | .lessOrEqual, left, right => left ≤ right
  | .greaterOrEqual, left, right => left ≥ right

namespace Condition

/-- The formula of a condition over the totals on the channels. -/
def Formula (condition : Condition) (channels : Channels) : Prop :=
  let total := channels.total condition.left.channels
  let right := condition.right.valueAt channels
  let Compares := fun (left right : Int32) =>
    condition.comparator.Relates left.toInt right.toInt
  match condition.left.selector with
  | .signal s => Compares (quantity total s condition.left.anyQuality) (right s)
  | .anything | .each => ∃ s, total s ≠ 0 ∧ Compares (total s) (right s)
  | .everything =>
    (∀ s, total s ≠ 0 → Compares (total s) (right s)) ∧
      ((∀ s, total s = 0) → ∀ s, Compares 0 (right s))

/-- The filters of the operands. -/
def filters (condition : Condition) : List ChannelFilter :=
  match condition.right with
  | .constant _ => [condition.left.channels]
  | .signal operand => [condition.left.channels, operand.channels]

end Condition

theorem Comparator.holds_iff {comparator : Comparator} {left right : Int32} :
    comparator.holds left right = true ↔
      comparator.Relates left.toInt right.toInt := by
  cases comparator <;>
    simp [holds, Relates, Int32.lt_iff_toInt_lt, Int32.le_iff_toInt_le,
      Int32.toInt_inj]

theorem SignalStore.countOf_eq (store : SignalStore) (s : Signal)
    (anyQuality : Bool) :
    store.countOf s anyQuality = quantity store.get s anyQuality := by
  cases anyQuality with
  | false => rfl
  | true => exact store.countAnyQuality_eq s.base

namespace SignalStore

variable {store : SignalStore} {p : Signal × Int32 → Bool}

theorem exists_mem_iff :
    (∃ entry ∈ store.toList, p entry = true) ↔
      ∃ s, store.get s ≠ 0 ∧ p (s, store.get s) = true := by
  constructor
  · rintro ⟨⟨s, count⟩, member, holds⟩
    obtain ⟨rfl, counted⟩ := mem_toList.mp member
    exact ⟨s, counted, holds⟩
  · rintro ⟨s, counted, holds⟩
    exact ⟨_, mem_toList.mpr ⟨rfl, counted⟩, holds⟩

theorem forall_mem_iff :
    (∀ entry ∈ store.toList, p entry = true) ↔
      ∀ s, store.get s ≠ 0 → p (s, store.get s) = true := by
  constructor
  · intro all s counted
    exact all _ (mem_toList.mpr ⟨rfl, counted⟩)
  · intro all entry member
    obtain ⟨s, count⟩ := entry
    obtain ⟨rfl, counted⟩ := mem_toList.mp member
    exact all s counted

theorem isEmpty_iff : store.isEmpty = true ↔ ∀ s, store.get s = 0 := by
  constructor
  · intro none s
    have nothing : store.toList = [] := List.isEmpty_iff.mp none
    by_contra counted
    have kept : (s, store.get s) ∈ store.toList := mem_toList.mpr ⟨rfl, counted⟩
    rw [nothing] at kept
    cases kept
  · intro absent
    have same : store = .empty := ext_get absent
    rw [same]
    rfl

end SignalStore

theorem SignalOperand.get_seen (operand : SignalOperand) (channels : Channels) :
    (operand.seen channels).get = channels.total operand.channels :=
  funext fun s => channels.get_through operand.channels s

theorem Operand.against_rightSide {condition : Condition}
    (sided : condition.HasRightSide) (channels : Channels) (s : Signal) :
    (condition.right.rightSide channels).against s =
      condition.right.valueAt channels s := by
  obtain ⟨left, comparator, right, combine⟩ := condition
  cases right with
  | constant value => rfl
  | signal operand =>
      obtain ⟨selector, filter, anyQuality⟩ := operand
      rcases sided with ⟨named, is_named⟩ | ⟨each, _⟩
      · cases is_named
        show SignalStore.countOf _ named anyQuality = _
        rw [SignalStore.countOf_eq, SignalOperand.get_seen]
        rfl
      · cases each
        exact channels.get_through filter s

theorem Operand.scalar_rightSide {condition : Condition}
    (sided : condition.HasRightSide)
    (everything : condition.left.selector = .everything)
    (channels : Channels) (s : Signal) :
    (condition.right.rightSide channels).scalar =
      condition.right.valueAt channels s := by
  rw [← against_rightSide sided]
  obtain ⟨left, comparator, right, combine⟩ := condition
  cases right with
  | constant value => rfl
  | signal operand =>
      obtain ⟨selector, filter, anyQuality⟩ := operand
      rcases sided with ⟨named, is_named⟩ | ⟨_, each⟩
      · cases is_named
        rfl
      · cases each.symm.trans everything

namespace Condition

theorem holds_iff_formula {condition : Condition}
    (sided : condition.HasRightSide) (channels : Channels) :
    condition.holds channels = true ↔ condition.Formula channels := by
  have against := Operand.against_rightSide sided channels
  have scalar := Operand.scalar_rightSide sided
  have seen := condition.left.get_seen channels
  unfold Formula holds
  simp only [← Comparator.holds_iff]
  cases picked : condition.left.selector with
  | signal s =>
      simp only [Selector.holds, SignalStore.countOf_eq, seen, against]
  | anything | each =>
      simp only [Selector.holds, List.any_eq_true, SignalStore.exists_mem_iff,
        seen, against]
  | everything =>
      have empty : (condition.left.seen channels).isEmpty = true ↔
          ∀ s, (condition.left.seen channels).get s = 0 :=
            SignalStore.isEmpty_iff
      rw [seen] at empty
      simp only [Selector.holds]
      split
      next none =>
        have absent := empty.mp none
        constructor
        · intro compares
          refine ⟨fun s counted => absurd (absent s) counted, fun _ s => ?_⟩
          rw [← scalar picked channels s]
          exact compares
        · intro meaning
          rw [scalar picked channels (.ofName .item "iron")]
          exact meaning.2 absent _
      next some_signal =>
        rw [List.all_eq_true, SignalStore.forall_mem_iff]
        simp only [seen, against]
        constructor
        · intro compares
          exact ⟨compares, fun absent => absurd (empty.mpr absent) some_signal⟩
        · intro meaning
          exact meaning.1

/-- The formula of a condition depends on the totals that its operands see, and
on no more. -/
theorem formula_congr {condition : Condition} {a b : Channels}
    (agree : ∀ filter ∈ condition.filters, ∀ s, a.total filter s =
      b.total filter s) :
    condition.Formula a ↔ condition.Formula b := by
  have left : a.total condition.left.channels =
      b.total condition.left.channels := by
    funext s
    apply agree
    unfold filters
    split <;> exact List.mem_cons_self
  have right : condition.right.valueAt a = condition.right.valueAt b := by
    obtain ⟨left, comparator, right, combine⟩ := condition
    cases right with
    | constant value => rfl
    | signal operand =>
        have seen : a.total operand.channels = b.total operand.channels := by
          funext s
          exact agree _ (List.mem_cons_of_mem _ List.mem_cons_self) s
        funext s
        simp only [Operand.valueAt, seen]
  unfold Formula
  rw [left, right]

/-- A valid condition means its formula, so it depends on the totals that its
operands see and not on what the stores were filled with on the way. -/
theorem valid_means_formula {condition : Condition} {index : Nat}
    (valid : condition.validate index = .ok ()) (channels : Channels) :
    (condition.holds channels = true ↔ condition.Formula channels) ∧
      (∀ other : Channels,
        (∀ filter ∈ condition.filters, ∀ s, other.total filter s =
          channels.total filter s) →
          condition.holds other = condition.holds channels) ∧
      ∀ red green : List (Signal × Int32),
        (∀ s, SignalStore.added red s = channels.red.get s) →
          (∀ s, SignalStore.added green s = channels.green.get s) →
            condition.holds ⟨.ofList red, .ofList green⟩ =
              condition.holds channels := by
  have meaning := holds_iff_formula (hasRightSide_of_validate valid)
  have totals (other : Channels)
      (agree : ∀ filter ∈ condition.filters, ∀ s, other.total filter s =
        channels.total filter s) :
      condition.holds other = condition.holds channels := by
    rw [Bool.eq_iff_iff, meaning, meaning]
    exact formula_congr agree
  refine ⟨meaning channels, totals, ?_⟩
  intro red green reds greens
  apply totals
  intro filter _ s
  simp only [Channels.total, SignalStore.get_ofList, reds, greens]

/-- Everything on both channels is less than one. -/
def allBelowOne : Condition :=
  ⟨⟨.everything, .both, false⟩, .less, .constant 1, none⟩

/-- Iron that the two channels cancel. -/
def cancellingIron : Channels :=
  ⟨.ofList [(.ofName .item "iron", 5)], .ofList [(.ofName .item "iron", -5)]⟩

theorem valid_means_formula_cancelling :
    allBelowOne.validate 0 = .ok () ∧
      (allBelowOne.holds cancellingIron = true ↔
        allBelowOne.Formula cancellingIron) ∧
      allBelowOne.holds .empty = allBelowOne.holds cancellingIron := by
  have valid : allBelowOne.validate 0 = .ok () := rfl
  obtain ⟨meaning, totals, _⟩ := valid_means_formula valid cancellingIron
  refine ⟨valid, meaning, totals .empty ?_⟩
  intro filter member s
  cases List.mem_singleton.mp member
  have cancels : SignalStore.added [(.ofName .item "iron", 5)] s +
      SignalStore.added [(.ofName .item "iron", -5)] s = 0 := by
    by_cases iron : Signal.ofName .item "iron" = s
    · simp [SignalStore.added, iron]
    · simp [SignalStore.added, iron]
  show 0 + 0 = (SignalStore.ofList _).get s + (SignalStore.ofList _).get s
  rw [SignalStore.get_ofList, SignalStore.get_ofList, cancels]
  rfl

end Condition

end CircuitSections
