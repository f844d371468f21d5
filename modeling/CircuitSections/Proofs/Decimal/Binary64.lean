import CircuitSections.Section.Multiplier

/-!
# Magnitudes that are read

Whatever numeral is read, the magnitude is finite: a power of ten that raises it
is checked against infinity, and one that lowers it divides by no less than one.
-/

namespace CircuitSections

namespace Binary64

/-- How many magnitudes lie from one power of two to the next. -/
def binade : Nat := Nat.pow 2 52

theorem binade_pos : 0 < binade := by decide

theorem pow_add_binade (doublings : Nat) :
    Nat.pow 2 (doublings + 52) = Nat.pow 2 doublings * binade := Nat.pow_add ..

theorem pow_succ_binade (doublings : Nat) :
    Nat.pow 2 (doublings + 53) = 2 * binade * Nat.pow 2 doublings := by
  have split : Nat.pow 2 (doublings + 53) =
      Nat.pow 2 doublings * Nat.pow 2 53 := Nat.pow_add ..
  rw [split, Nat.mul_comm]
  rfl

theorem leading_bits_lt (u : Nat) : u / Nat.pow 2 (u.log2 - 52) <
    2 * binade := by
  have least : u < Nat.pow 2 (u.log2 - 52 + 53) := by
    apply Nat.lt_of_lt_of_le Nat.lt_log2_self
    exact Nat.pow_le_pow_right (by decide) (by omega)
  rw [pow_succ_binade] at least
  exact Nat.div_lt_of_lt_mul (Nat.mul_comm _ _ ▸ least)

theorem le_leading_bits {u : Nat} (large : 52 ≤ u.log2) :
    binade ≤ u / Nat.pow 2 (u.log2 - 52) := by
  have positive : u ≠ 0 := by
    rintro rfl
    rw [Nat.log2_zero] at large
    omega
  have least := Nat.log2_self_le positive
  have split := pow_add_binade (u.log2 - 52)
  rw [Nat.sub_add_cancel large, Nat.mul_comm] at split
  apply (Nat.le_div_iff_mul_le (Nat.two_pow_pos _)).mpr
  exact split ▸ least

theorem floor_lt {u doublings : Nat} (below : u < Nat.pow 2 (doublings + 53)) :
    floor u < (doublings + 2) * binade := by
  rcases Nat.eq_zero_or_pos u with rfl | positive
  · have zero : floor 0 = 0 := rfl
    rw [zero]
    exact Nat.mul_pos (Nat.succ_pos _) binade_pos
  · have log : u.log2 < doublings + 53 :=
      (Nat.log2_lt (Nat.ne_of_gt positive)).mpr below
    have rest := leading_bits_lt u
    have steps : (u.log2 - 52 + 2) * binade ≤ (doublings + 2) * binade :=
      Nat.mul_le_mul_right binade (by omega)
    have written :
        floor u = (u.log2 - 52) * binade + u / Nat.pow 2 (u.log2 - 52) := rfl
    rw [Nat.add_mul] at steps
    omega

theorem le_floor {u doublings : Nat} (above : Nat.pow 2 (doublings + 52) ≤ u) :
    (doublings + 1) * binade ≤ floor u := by
  have positive : u ≠ 0 :=
    Nat.ne_of_gt (Nat.lt_of_lt_of_le (Nat.two_pow_pos _) above)
  have log : doublings + 52 ≤ u.log2 := (Nat.le_log2 positive).mpr above
  have rest : binade ≤ u / Nat.pow 2 (u.log2 - 52) := le_leading_bits (by omega)
  have steps : (doublings + 1) * binade ≤ (u.log2 - 52 + 1) * binade :=
    Nat.mul_le_mul_right binade (by omega)
  have written :
      floor u = (u.log2 - 52) * binade + u / Nat.pow 2 (u.log2 - 52) := rfl
  rw [Nat.add_one_mul (u.log2 - 52)] at steps
  omega

theorem units_lt {n doublings : Nat} (below : n < (doublings + 2) * binade) :
    units n < Nat.pow 2 (doublings + 53) := by
  have count : n / binade < doublings + 2 :=
    Nat.div_lt_of_lt_mul (Nat.mul_comm _ _ ▸ below)
  have rest : n - (n / binade - 1) * binade < 2 * binade := by
    have whole := Nat.lt_mul_div_succ n binade_pos
    have steps : binade * (n / binade + 1) ≤ (n / binade - 1 + 2) * binade := by
      rw [Nat.mul_comm]
      exact Nat.mul_le_mul_right binade (by omega)
    have positive := binade_pos
    rw [Nat.add_mul] at steps
    omega
  have scale : Nat.pow 2 (n / binade - 1) ≤ Nat.pow 2 doublings :=
    Nat.pow_le_pow_right (by decide) (by omega)
  calc
    units n = (n - (n / binade - 1) * binade) * Nat.pow 2 (n / binade - 1) :=
      rfl
    _ < 2 * binade * Nat.pow 2 (n / binade - 1) :=
          Nat.mul_lt_mul_of_pos_right rest (Nat.two_pow_pos _)
    _ ≤ 2 * binade * Nat.pow 2 doublings := Nat.mul_le_mul_left _ scale
    _ = Nat.pow 2 (doublings + 53) := (pow_succ_binade doublings).symm

theorem le_units {n doublings : Nat} (above : (doublings + 1) * binade ≤ n) :
    Nat.pow 2 (doublings + 52) ≤ units n := by
  have count : doublings + 1 ≤ n / binade :=
    (Nat.le_div_iff_mul_le binade_pos).mpr above
  have rest : binade ≤ n - (n / binade - 1) * binade := by
    have whole := Nat.div_mul_le_self n binade
    have steps : (n / binade - 1 + 1) * binade ≤ n := by
      rwa [Nat.sub_add_cancel (by omega)]
    rw [Nat.add_mul] at steps
    omega
  have scale : Nat.pow 2 doublings ≤ Nat.pow 2 (n / binade - 1) :=
    Nat.pow_le_pow_right (by decide) (by omega)
  calc
    Nat.pow 2 (doublings + 52) = Nat.pow 2 doublings * binade :=
      pow_add_binade doublings
    _ ≤ Nat.pow 2 (n / binade - 1) * (n - (n / binade - 1) * binade) :=
      Nat.mul_le_mul scale rest
    _ = units n := Nat.mul_comm _ _

theorem nearest_def : nearest = fun numerator denominator =>
    let scaled := numerator * Nat.pow 2 unitExponent
    let n := floor (scaled / denominator)
    match compare (2 * scaled) (denominator * (units n + units (n + 1))) with
    | .lt => n
    | .gt => n + 1
    | .eq => n + n % 2 := rfl

theorem nearest_cases (numerator denominator : Nat) :
    ∃ up ≤ 1, nearest numerator denominator =
      floor (numerator * Nat.pow 2 unitExponent / denominator) + up := by
  rw [nearest_def]
  dsimp only
  generalize numerator * Nat.pow 2 unitExponent = scaled
  generalize floor (scaled / denominator) = n
  have even : n % 2 < 2 := Nat.mod_lt n (by decide)
  cases compare (2 * scaled) (denominator * (units n + units (n + 1))) with
  | lt => exact ⟨0, by decide, (Nat.add_zero _).symm⟩
  | gt => exact ⟨1, by decide, rfl⟩
  | eq => exact ⟨_, Nat.le_of_lt_succ even, rfl⟩

theorem nearest_le {numerator denominator doublings : Nat}
    (below : numerator * Nat.pow 2 unitExponent / denominator <
      Nat.pow 2 (doublings + 53)) :
    nearest numerator denominator ≤ (doublings + 2) * binade := by
  obtain ⟨up, small, result⟩ := nearest_cases numerator denominator
  have under := floor_lt below
  omega

theorem le_nearest {numerator denominator doublings : Nat}
    (above : Nat.pow 2 (doublings + 52) ≤
      numerator * Nat.pow 2 unitExponent / denominator) :
    (doublings + 1) * binade ≤ nearest numerator denominator := by
  obtain ⟨up, _, result⟩ := nearest_cases numerator denominator
  have least := le_floor above
  omega

/-! ### Steps of a reading -/

/-- The place of magnitude one among the powers of two, as a variable: nothing
is to compute with numbers of this size. -/
theorem exists_unitExponent : ∃ doublings, doublings = 1022 ∧
    unitExponent = doublings + 52 :=
  ⟨1022, rfl, rfl⟩

theorem one_le_tenTo (exponent : Nat) : Nat.pow 2 unitExponent ≤
    units (tenTo exponent) := by
  obtain ⟨doublings, _, split⟩ := exists_unitExponent
  have positive : 0 < Nat.pow 10 exponent := Nat.pow_pos (by decide)
  have above : Nat.pow 2 (doublings + 52) ≤
      Nat.pow 10 exponent * Nat.pow 2 unitExponent / 1 := by
    rw [Nat.div_one, split]
    exact Nat.le_mul_of_pos_left _ positive
  rw [split]
  exact le_units (le_nearest above)

theorem nearest_word_le {coefficient : Nat} (word : coefficient < UInt64.size) :
    nearest coefficient 1 ≤ 1087 * binade := by
  obtain ⟨doublings, place, split⟩ := exists_unitExponent
  have scale : Nat.pow 2 64 * Nat.pow 2 unitExponent =
      Nat.pow 2 (doublings + 63 + 53) := by
    have sum : doublings + 63 + 53 = 64 + (doublings + 52) := by omega
    rw [split, sum]
    exact (Nat.pow_add ..).symm
  have below : coefficient * Nat.pow 2 unitExponent / 1 <
      Nat.pow 2 (doublings + 63 + 53) := by
    rw [Nat.div_one, ← scale, split]
    exact Nat.mul_lt_mul_of_pos_right word (Nat.two_pow_pos _)
  have bound := nearest_le below
  rw [place] at bound
  exact bound

theorem ratio_tenTo_le {magnitude doublings : Nat}
    (below : magnitude < (doublings + 2) * binade) (exponent : Nat) :
    ratio magnitude (tenTo exponent) ≤ (doublings + 2) * binade := by
  apply nearest_le
  have quotient :
      units magnitude * Nat.pow 2 unitExponent / units (tenTo exponent) ≤
        units magnitude := by
    apply Nat.div_le_of_le_mul
    rw [Nat.mul_comm]
    exact Nat.mul_le_mul_right _ (one_le_tenTo exponent)
  exact Nat.lt_of_le_of_lt quotient (units_lt below)

theorem lowered_lt {magnitude : Nat} (small : magnitude ≤ 1087 * binade)
    (exponent : Nat) :
    lowered magnitude exponent < infinity := by
  have first (power : Nat) : ratio magnitude (tenTo power) ≤ 1088 * binade := by
    have below : magnitude < (1086 + 2) * binade :=
      Nat.lt_of_le_of_lt small (by decide)
    exact ratio_tenTo_le below power
  have second (power : Nat) :
      ratio (ratio magnitude (tenTo greatestPower)) (tenTo power) ≤
        1089 * binade := by
    have below : ratio magnitude (tenTo greatestPower) < (1087 + 2) * binade :=
      Nat.lt_of_le_of_lt (first greatestPower) (by decide)
    exact ratio_tenTo_le below power
  unfold lowered
  split
  · exact Nat.lt_of_le_of_lt (first _) (by decide)
  · exact Nat.lt_of_le_of_lt (second _) (by decide)

theorem raised?_lt {magnitude exponent result : Nat}
    (raised : raised? magnitude exponent = some result) :
    result < infinity := by
  unfold raised? at raised
  split at raised
  · obtain ⟨finite, same⟩ := Option.ite_none_right_eq_some.mp raised
    exact Option.some.inj same ▸ finite
  · cases raised

end Binary64

namespace Numeral

open Binary64

theorem gather_lt {coefficient : Nat} (word : coefficient < UInt64.size)
    (digits : List Char) :
    (gather coefficient digits).1 < UInt64.size := by
  induction digits generalizing coefficient with
  | nil => exact word
  | cons digit digits ih =>
      unfold gather
      dsimp only
      split
      next longer => exact ih longer
      next => exact word

theorem leading_lt (n : Numeral) : n.leading.1 < UInt64.size := by
  apply gather_lt
  apply gather_lt
  decide

theorem magnitude?_lt {n : Numeral} {magnitude : Nat}
    (read : n.magnitude? = some magnitude) :
    magnitude < infinity := by
  have small := nearest_word_le n.leading_lt
  unfold magnitude? at read
  dsimp only at read
  split at read
  · cases read
    decide
  · split at read
    · cases read
      exact lowered_lt small _
    · exact raised?_lt read

end Numeral

namespace Multiplier

theorem magnitude_ofParts (negative : Bool) {magnitude : Nat}
    (finite : magnitude < Binary64.infinity) :
    (ofParts negative magnitude).magnitude = magnitude := by
  have sign : Binary64.infinity < Nat.pow 2 63 := by decide
  have word : 2 * Nat.pow 2 63 = Nat.pow 2 64 := by decide
  have bits : (ofParts negative magnitude).bits.toNat =
      (if negative then Nat.pow 2 63 else 0) + magnitude := by
    apply UInt64.toNat_ofNat_of_lt'
    show _ < Nat.pow 2 64
    split <;> omega
  have below : magnitude < Nat.pow 2 63 := Nat.lt_trans finite sign
  rw [Multiplier.magnitude, bits]
  split
  · rw [Nat.add_mod_left, Nat.mod_eq_of_lt below]
  · rw [Nat.zero_add, Nat.mod_eq_of_lt below]

theorem isFinite_of_ofNumeral? {n : Numeral} {m : Multiplier}
    (read : ofNumeral? n = some m) :
    m.isFinite = true := by
  obtain ⟨magnitude, found, rfl⟩ := Option.map_eq_some_iff.mp read
  have finite := Numeral.magnitude?_lt found
  rw [isFinite, magnitude_ofParts _ finite]
  exact decide_eq_true finite

end Multiplier

end CircuitSections
