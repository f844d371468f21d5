import CircuitSections.Proofs.Decimal.Value
import CircuitSections.Proofs.Text.Bytes
import CircuitSections.Section.Spec
import Mathlib.Algebra.Order.Ring.WithTop
import Mathlib.Data.Prod.Lex

/-!
# The order of specs

Specs are ordered by a rank that is read off the bits of the multiplier.  This
is the order of the names by their bytes and then of the multipliers by the
numbers that they denote, where the two zeros are one number and all that is no
number is one thing above the rest.
-/

namespace CircuitSections

namespace Multiplier

/-- The number that a multiplier denotes, between the two infinities; what is no
number stands above all. -/
def amount (m : Multiplier) : WithTop (WithBot (WithTop ℚ)) :=
  if m.isNaN then ⊤
  else
    match m.value? with
    | some value => ((value : WithTop ℚ) : WithBot (WithTop ℚ))
    | none => if m.negative then ⊥ else ((⊤ : WithTop ℚ) : WithBot (WithTop ℚ))

/-- The number of a finite rank. -/
def ofRank (rank : Int) : ℚ :=
  (if rank < 0 then -1 else 1) *
    (Binary64.units rank.natAbs / 2 ^ Binary64.unitExponent)

theorem ofRank_lt_ofRank {a b : Int} (below : a < b) : ofRank a < ofRank b := by
  have units : StrictMono Binary64.units :=
    strictMono_nat_of_lt_succ Binary64.units_lt_succ
  have scaled {m n : ℕ} (below : m < n) :
      (Binary64.units m / 2 ^ Binary64.unitExponent : ℚ) <
        Binary64.units n / 2 ^ Binary64.unitExponent := by
    apply div_lt_div_of_pos_right (Nat.cast_lt.mpr (units below))
    positivity
  have whole (n : ℕ) :
      (0 : ℚ) ≤ Binary64.units n / 2 ^ Binary64.unitExponent := by positivity
  unfold ofRank
  by_cases left : a < 0
  · rw [if_pos left]
    by_cases right : b < 0
    · rw [if_pos right]
      have less := scaled (show b.natAbs < a.natAbs by omega)
      linarith only [less]
    · rw [if_neg right]
      have above := scaled (show 0 < a.natAbs by omega)
      linarith only [above, whole 0, whole b.natAbs]
  · rw [if_neg left, if_neg (by omega)]
    have less := scaled (show a.natAbs < b.natAbs by omega)
    linarith only [less]

theorem amount_cases (m : Multiplier) :
    (m.rank = Nat.pow 2 63 ∧ m.amount = ⊤) ∨
    (m.rank = Binary64.infinity ∧
      m.amount = ((⊤ : WithTop ℚ) : WithBot (WithTop ℚ))) ∨
    (m.rank = -Binary64.infinity ∧ m.amount = ⊥) ∨
    (-Binary64.infinity < m.rank ∧ m.rank < Binary64.infinity ∧
      m.amount = ((ofRank m.rank : WithTop ℚ) : WithBot (WithTop ℚ))) := by
  rcases Nat.lt_trichotomy m.magnitude Binary64.infinity with finite |
    infinite | beyond
  · have number : m.isNaN = false := by simp [isNaN]; omega
    have denotes : m.isFinite = true := by simpa [isFinite] using finite
    have value : m.value? = some (ofRank m.rank) := by
      rw [value?, if_pos denotes, rank, number, ofRank]
      cases m.negative with
      | false => simp
      | true =>
          -- A negative zero has the rank of zero, and denotes zero with either
          -- sign.
          have none : Binary64.units 0 = 0 := rfl
          rcases Nat.eq_zero_or_pos m.magnitude with zero | positive
          · simp [zero, none]
          · simp [positive]
    refine .inr (.inr (.inr ⟨?_, ?_, ?_⟩))
    · rw [rank, number]
      cases m.negative <;> simp <;> omega
    · rw [rank, number]
      cases m.negative <;> simp <;> omega
    · rw [amount, number, value]
      rfl
  · have number : m.isNaN = false := by simp [isNaN, infinite]
    have missing : m.value? = none := by simp [value?, isFinite, infinite]
    cases sign : m.negative with
    | false =>
        refine .inr (.inl ⟨?_, ?_⟩)
        · simp [rank, number, sign, infinite]
        · simp [amount, number, missing, sign]
    | true =>
        refine .inr (.inr (.inl ⟨?_, ?_⟩))
        · simp [rank, number, sign, infinite]
        · simp [amount, number, missing, sign]
  · have none : m.isNaN = true := by simpa [isNaN] using beyond
    exact .inl ⟨by simp [rank, none], by simp [amount, none]⟩

theorem amount_lt_of_rank_lt {a b : Multiplier} (below : a.rank < b.rank) :
    a.amount < b.amount := by
  have infinity : (Binary64.infinity : Int) < Nat.pow 2 63 := by decide
  have above (x : WithTop ℚ) :
      (⊥ : WithTop (WithBot (WithTop ℚ))) < ((x : WithBot (WithTop ℚ))) :=
    WithTop.coe_lt_coe.mpr (WithBot.bot_lt_coe x)
  have among {x y : WithTop ℚ} (less : x < y) :
      ((x : WithBot (WithTop ℚ)) : WithTop (WithBot (WithTop ℚ))) <
        (y : WithBot (WithTop ℚ)) :=
    WithTop.coe_lt_coe.mpr (WithBot.coe_lt_coe.mpr less)
  rcases b.amount_cases with ⟨_, right⟩ | ⟨_, right⟩ |
    ⟨_, right⟩ | ⟨_, _, right⟩
  · rw [right]
    rcases a.amount_cases with ⟨_, left⟩ | ⟨_, left⟩ | ⟨_, left⟩ | ⟨_, _, left⟩
    · omega
    · rw [left]; exact WithTop.coe_lt_top _
    · rw [left]; exact WithTop.coe_lt_top _
    · rw [left]; exact WithTop.coe_lt_top _
  · rw [right]
    rcases a.amount_cases with ⟨_, left⟩ | ⟨_, left⟩ | ⟨_, left⟩ | ⟨_, _, left⟩
    · omega
    · omega
    · rw [left]; exact above ⊤
    · rw [left]; exact among (WithTop.coe_lt_top _)
  · rcases a.amount_cases with ⟨_, _⟩ | ⟨_, _⟩ | ⟨_, _⟩ | ⟨_, _, _⟩ <;> omega
  · rw [right]
    rcases a.amount_cases with ⟨_, left⟩ | ⟨_, left⟩ | ⟨_, left⟩ | ⟨_, _, left⟩
    · omega
    · omega
    · rw [left]; exact above _
    · rw [left]; exact among (WithTop.coe_lt_coe.mpr (ofRank_lt_ofRank below))

theorem amount_eq_of_rank_eq {a b : Multiplier} (same : a.rank = b.rank) :
    a.amount = b.amount := by
  have infinity : (Binary64.infinity : Int) < Nat.pow 2 63 := by decide
  have positive : (0 : Int) < Binary64.infinity := by decide
  rcases a.amount_cases with ⟨_, left⟩ | ⟨_, left⟩ | ⟨_, left⟩ |
    ⟨_, _, left⟩ <;>
    rcases b.amount_cases with ⟨_, right⟩ | ⟨_, right⟩ | ⟨_, right⟩ |
      ⟨_, _, right⟩ <;>
    first
    | omega
    | exact left.trans right.symm
    | rw [left, right, same]

theorem amount_lt_iff {a b : Multiplier} : a.amount < b.amount ↔
    a.rank < b.rank := by
  refine ⟨fun below => ?_, amount_lt_of_rank_lt⟩
  rcases Int.lt_trichotomy a.rank b.rank with less | same | greater
  · exact less
  · exact absurd below (amount_eq_of_rank_eq same).not_lt
  · exact absurd below (amount_lt_of_rank_lt greater).not_gt

theorem amount_eq_iff {a b : Multiplier} : a.amount = b.amount ↔
    a.rank = b.rank := by
  refine ⟨fun same => ?_, amount_eq_of_rank_eq⟩
  rcases Int.lt_trichotomy a.rank b.rank with less | equal | greater
  · exact absurd same (amount_lt_of_rank_lt less).ne
  · exact equal
  · exact absurd same (amount_lt_of_rank_lt greater).ne'

end Multiplier

/-- What a spec stands by in ascending order: the bytes of its name, then what
its multiplier denotes. -/
def SectionSpec.standing (spec : SectionSpec) :
    List ℕ ×ₗ WithTop (WithBot (WithTop ℚ)) :=
  toLex (Text.bytes spec.name, spec.multiplier.amount)

theorem SpecKey.compare_eq_lt_iff {a b : SpecKey} :
    compare a b = .lt ↔ a.name < b.name ∨ a.name = b.name ∧
      a.rank < b.rank := by
  show (compareLex (compareOn name) (compareOn rank)) a b = .lt ↔ _
  rw [compareLex, Ordering.then_eq_lt]
  simp only [compareOn, Int.compare_eq_lt, Std.LawfulEqOrd.compare_eq_iff_eq]
  exact or_congr_left compareOfLessAndEq_eq_lt

theorem SectionSpec.standing_lt_iff {a b : SectionSpec} :
    a.standing < b.standing ↔ compare a.key b.key = .lt := by
  rw [SpecKey.compare_eq_lt_iff, standing, standing, Prod.Lex.toLex_lt_toLex]
  simp only [Text.bytes_strictMono.lt_iff_lt,
    Text.bytes_strictMono.injective.eq_iff, Multiplier.amount_lt_iff]
  rfl

theorem SectionSpec.standing_eq_iff {a b : SectionSpec} :
    a.standing = b.standing ↔ a.key = b.key := by
  rw [standing, standing, toLex.injective.eq_iff, Prod.mk.injEq,
    Text.bytes_strictMono.injective.eq_iff, Multiplier.amount_eq_iff, key, key,
    SpecKey.mk.injEq]

end CircuitSections
