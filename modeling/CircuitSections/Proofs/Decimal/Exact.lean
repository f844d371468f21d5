import CircuitSections.Proofs.Decimal.Binary64
import CircuitSections.Proofs.Text.Digits

/-!
# Readings that round once

A coefficient below `2 ^ 53` and a power of ten up to `10 ^ 22` are magnitudes
themselves.  So a numeral of such a coefficient, divided by such a power, is
rounded by the division alone and is read as the magnitude nearest to it.  All
multipliers whose decimals are that short are read back; of the others some are
not.
-/

namespace CircuitSections

namespace Binary64

/-! ### Magnitudes that are met exactly -/

theorem units_floor {u : Nat} (whole : Nat.pow 2 (u.log2 - 52) ∣ u) :
    units (floor u) = u := by
  let doublings := u.log2 - 52
  let rest := u / Nat.pow 2 doublings
  have below : rest < 2 * binade := leading_bits_lt u
  have above : 0 < doublings → binade ≤ rest := by
    intro some_doubling
    exact le_leading_bits (by omega)
  have count : (doublings * binade + rest) / binade - 1 = doublings := by
    have sum : (doublings * binade + rest) / binade =
        doublings + rest / binade := by
      rw [Nat.add_comm, Nat.add_mul_div_right _ _ binade_pos, Nat.add_comm]
    have most : rest / binade < 2 :=
      Nat.div_lt_of_lt_mul (Nat.mul_comm _ _ ▸ below)
    have least : 0 < doublings → 1 ≤ rest / binade := by
      intro some_doubling
      exact (Nat.one_le_div_iff binade_pos).mpr (above some_doubling)
    omega
  calc
    units (floor u) = (doublings * binade + rest -
        ((doublings * binade + rest) / binade - 1) * binade) *
          Nat.pow 2 ((doublings * binade + rest) / binade - 1) := rfl
    _ = rest * Nat.pow 2 doublings := by rw [count, Nat.add_sub_cancel_left]
    _ = u := Nat.div_mul_cancel whole

theorem units_lt_succ (n : Nat) : units n < units (n + 1) := by
  let doublings := n / binade - 1
  have taken : doublings * binade ≤ n := by
    have whole := Nat.div_mul_le_self n binade
    exact Nat.le_trans (Nat.mul_le_mul_right binade (Nat.sub_le _ 1)) whole
  by_cases same : (n + 1) / binade - 1 = doublings
  · have next : units (n + 1) = (n + 1 - doublings * binade) * Nat.pow 2
        doublings := by
      show (n + 1 - ((n + 1) / binade - 1) * binade) * Nat.pow 2
        ((n + 1) / binade - 1) = _
      rw [same]
    have here : units n = (n - doublings * binade) * Nat.pow 2 doublings := rfl
    have further : n - doublings * binade < n + 1 - doublings * binade := by
      omega
    rw [here, next]
    exact Nat.mul_lt_mul_of_pos_right further (Nat.two_pow_pos _)
  · -- The next magnitude is a power of two, and the first of its distance.
    have step : (n + 1) / binade = n / binade + if binade ∣ n + 1 then 1
        else 0 := Nat.succ_div
    split at step
    next whole =>
      have count : (n + 1) / binade = doublings + 2 := by omega
      have first : n + 1 = (doublings + 2) * binade := by
        rw [← count, Nat.div_mul_cancel whole]
      have below : units n < Nat.pow 2 (doublings + 53) := by
        apply units_lt
        rw [← first]
        exact Nat.lt_succ_self n
      have above : Nat.pow 2 (doublings + 1 + 52) ≤ units (n + 1) := by
        apply le_units
        exact Nat.le_of_eq first.symm
      exact Nat.lt_of_lt_of_le below above
    next => omega

theorem nearest_of_units {numerator denominator n : Nat}
    (positive : 0 < denominator)
    (exact : numerator * Nat.pow 2 unitExponent = denominator * units n)
    (least : floor (units n) = n) : nearest numerator denominator = n := by
  have nearer : compare (2 * (denominator * units n))
      (denominator * (units n + units (n + 1))) =
        .lt := by
    have between : 2 * units n < units n + units (n + 1) := by
      have later := units_lt_succ n
      omega
    rw [Nat.compare_eq_lt, Nat.mul_left_comm]
    exact Nat.mul_lt_mul_of_pos_left between positive
  rw [nearest_def]
  dsimp only
  rw [exact, Nat.mul_div_cancel_left _ positive, least, nearer]

/-- A short number has no bits behind the leading ones but zeros. -/
theorem leading_dvd {short : Nat} (small : short < Nat.pow 2 53) (zeros : Nat) :
    Nat.pow 2 ((short * Nat.pow 2 zeros).log2 - 52) ∣
      short * Nat.pow 2 zeros := by
  rcases Nat.eq_zero_or_pos short with rfl | positive
  · rw [Nat.zero_mul]
    exact Nat.dvd_zero _
  · have bits : (short * Nat.pow 2 zeros).log2 < 53 + zeros := by
      apply (Nat.log2_lt
        (Nat.ne_of_gt (Nat.mul_pos positive (Nat.two_pow_pos _)))).mpr
      rw [Nat.pow_add]
      exact Nat.mul_lt_mul_of_pos_right small (Nat.two_pow_pos _)
    have fewer : Nat.pow 2 ((short * Nat.pow 2 zeros).log2 - 52) ∣
        Nat.pow 2 zeros :=
      Nat.pow_dvd_pow 2 (by omega)
    exact Nat.dvd_trans fewer (Nat.dvd_mul_left _ _)

theorem units_nearest {short : Nat} (small : short < Nat.pow 2 53)
    (doublings : Nat) :
    units (nearest (short * Nat.pow 2 doublings) 1) =
      short * Nat.pow 2 doublings * Nat.pow 2 unitExponent := by
  let u := short * Nat.pow 2 doublings * Nat.pow 2 unitExponent
  have zeros : u = short * Nat.pow 2 (doublings + unitExponent) := by
    have split (place : Nat) : Nat.pow 2 (doublings + place) =
        Nat.pow 2 doublings * Nat.pow 2 place := Nat.pow_add ..
    show short * Nat.pow 2 doublings * Nat.pow 2 unitExponent = _
    rw [split, Nat.mul_assoc]
  have whole : Nat.pow 2 (u.log2 - 52) ∣ u := by
    rw [zeros]
    exact leading_dvd small _
  have result : nearest (short * Nat.pow 2 doublings) 1 = floor u := by
    apply nearest_of_units (by decide)
    · rw [units_floor whole, Nat.one_mul]
    · rw [units_floor whole]
  rw [result]
  exact units_floor whole

/-! ### Quotients -/

theorem compare_mul_right {scale : Nat} (positive : 0 < scale) (a b : Nat) :
    compare (a * scale) (b * scale) = compare a b := by
  simp only [Nat.compare_eq_ite_lt, Nat.mul_lt_mul_right positive]

theorem nearest_mul_right {scale : Nat} (positive : 0 < scale)
    (numerator denominator : Nat) :
    nearest (numerator * scale) (denominator * scale) =
      nearest numerator denominator := by
  have scaled : numerator * scale * Nat.pow 2 unitExponent =
      numerator * Nat.pow 2 unitExponent * scale := Nat.mul_right_comm ..
  have compared (a b : Nat) :
      compare (2 * (a * scale)) (denominator * scale * b) =
        compare (2 * a) (denominator * b) := by
    rw [← Nat.mul_assoc, Nat.mul_right_comm denominator,
      compare_mul_right positive]
  rw [nearest_def]
  dsimp only
  rw [scaled, Nat.mul_div_mul_right _ _ positive, compared]

theorem lowered_eq_nearest {coefficient exponent : Nat}
    (small : coefficient < Nat.pow 2 53) (few : exponent ≤ 22) :
    lowered (nearest coefficient 1) exponent =
      nearest coefficient (Nat.pow 10 exponent) := by
  have numerator : units (nearest coefficient 1) =
      coefficient * Nat.pow 2 unitExponent := by
    have exact := units_nearest small 0
    rw [show Nat.pow 2 0 = 1 from rfl, Nat.mul_one] at exact
    exact exact
  have denominator : units (tenTo exponent) =
      Nat.pow 10 exponent * Nat.pow 2 unitExponent := by
    have short : Nat.pow 5 exponent < Nat.pow 2 53 := by
      have most : Nat.pow 5 exponent ≤ Nat.pow 5 22 :=
        Nat.pow_le_pow_right (by decide) few
      exact Nat.lt_of_le_of_lt most (by decide)
    have split : Nat.pow 10 exponent =
        Nat.pow 5 exponent * Nat.pow 2 exponent :=
      Nat.mul_pow 5 2 exponent
    rw [tenTo, split]
    exact units_nearest short exponent
  have within : exponent ≤ greatestPower := Nat.le_trans few (by decide)
  have positive (place : Nat) : 0 < Nat.pow 2 place := Nat.two_pow_pos place
  rw [lowered, if_pos within, ratio, numerator, denominator]
  exact nearest_mul_right (positive unitExponent) _ _

/-! ### Shortest decimals -/

/-- A shortest decimal is read as the magnitude it stands for, when it is
rounded once. -/
theorem ofDecimal?_shortest {tie : Tie} {n coefficient : Nat} {power : Int}
    (written : shortest tie n = (coefficient, power)) (fine : -22 ≤ power) :
    ofDecimal? coefficient power = some n := by
  unfold shortest at written
  split at written
  next zero =>
    cases written
    exact congrArg some zero.symm
  next =>
    rcases Option.getD_eq_iff.mp written with found | ⟨_, coarse⟩
    · obtain ⟨i, _, onGrid⟩ := List.exists_of_findSome?_eq_some found
      obtain ⟨point, chosen, same⟩ := Option.map_eq_some_iff.mp onGrid
      cases same
      unfold onGrid? at chosen
      have reads := List.find?_some chosen
      exact of_decide_eq_true reads
    · -- The grid that holds every magnitude is finer than that.
      have finest : -(unitExponent : Int) = power := (Prod.mk.inj coarse).2
      have far : unitExponent = 1074 := rfl
      omega

theorem nearest_of_ofDecimal? {coefficient n : Nat} {power : Int}
    (read : ofDecimal? coefficient power = some n) (positive : coefficient ≠ 0)
    (fine : -22 ≤ power) :
    nearest (quotient coefficient power).1 (quotient coefficient power).2 =
      n := by
  unfold ofDecimal? at read
  rw [if_neg positive] at read
  dsimp only at read
  split at read
  · cases read
  · rw [if_neg (by omega)] at read
    obtain ⟨_, same⟩ := Option.ite_none_right_eq_some.mp read
    exact Option.some.inj same

end Binary64

namespace Numeral

open Binary64

theorem le_ofDigitChars (digits : List Char) (initial : Nat) :
    initial ≤ Nat.ofDigitChars 10 digits initial := by
  induction digits generalizing initial with
  | nil => exact Nat.le_refl _
  | cons digit digits ih =>
      rw [Nat.ofDigitChars_cons]
      exact Nat.le_trans (by omega) (ih _)

theorem gather_of_lt {coefficient : Nat} {digits : List Char}
    (word : Nat.ofDigitChars 10 digits coefficient < UInt64.size) :
    gather coefficient digits =
      (Nat.ofDigitChars 10 digits coefficient, []) := by
  induction digits generalizing coefficient with
  | nil => rfl
  | cons digit digits ih =>
      have longer :=
        le_ofDigitChars digits (Nat.ofDigitChars 10 [digit] coefficient)
      have fits : Nat.ofDigitChars 10 [digit] coefficient < UInt64.size :=
        Nat.lt_of_le_of_lt longer word
      unfold gather
      dsimp only
      rw [if_pos fits]
      exact ih word

theorem leading_of_lt {n : Numeral} (word : n.coefficient < UInt64.size) :
    n.leading = (n.coefficient, n.power) := by
  let whole := n.coefficient / Nat.pow 10 n.scale
  have wholeDigits : Nat.ofDigitChars 10 (Nat.toDigits 10 whole) 0 = whole :=
    Nat.ofDigitChars_toDigits (by decide) (by decide)
  have allDigits : Nat.ofDigitChars 10
      (Digits.fixed 10 n.scale (n.coefficient % Nat.pow 10 n.scale)) whole =
        n.coefficient := by
    rw [Digits.ofDigitChars_fixed, Nat.mod_mod]
    exact Nat.div_add_mod _ _
  have first : gather 0 (Nat.toDigits 10 whole) = (whole, []) := by
    rw [gather_of_lt, wholeDigits]
    rw [wholeDigits]
    exact Nat.lt_of_le_of_lt (Nat.div_le_self _ _) word
  have second : gather whole
      (Digits.fixed 10 n.scale (n.coefficient % Nat.pow 10 n.scale)) =
        (n.coefficient, []) := by
    rw [gather_of_lt, allDigits]
    rw [allDigits]
    exact word
  unfold leading
  rw [first]
  dsimp only
  rw [second]
  simp

theorem magnitude?_of_zero {n : Numeral} (zero : n.coefficient = 0) :
    n.magnitude? = some 0 := by
  have taken : n.leading = (0, n.power) := by
    rw [leading_of_lt (by rw [zero]; decide), zero]
  unfold magnitude?
  rw [taken]
  rfl

theorem magnitude?_of_short {n : Numeral} (small : n.coefficient < Nat.pow 2 53)
    (positive : n.coefficient ≠ 0) (lowers : n.power < 0)
    (fine : -22 ≤ n.power) :
    n.magnitude? =
      some (nearest n.coefficient (Nat.pow 10 (-n.power).toNat)) := by
  have word : n.coefficient < UInt64.size := Nat.lt_trans small (by decide)
  unfold magnitude?
  rw [leading_of_lt word]
  dsimp only
  rw [if_neg positive, if_pos lowers, lowered_eq_nearest small (by omega)]

section Shapes

variable {n : Numeral} {coefficient : Nat} {power : Int}

/-- A whole number is written with a zero behind it, and divided by ten
again. -/
theorem magnitude?_of_tenfold (positive : coefficient ≠ 0)
    (small : coefficient * Nat.pow 10 (power + 1).toNat < Nat.pow 2 53)
    (whole : 0 ≤ power)
    (tenfold : n.coefficient = coefficient * Nat.pow 10 (power.toNat + 1))
    (lowers : n.power = -1) :
    n.magnitude? = some (nearest (quotient coefficient power).1
      (quotient coefficient power).2) := by
  have next : (power + 1).toNat = power.toNat + 1 := by omega
  have short : n.coefficient < Nat.pow 2 53 := by rwa [tenfold, ← next]
  have some_digit : n.coefficient ≠ 0 := by
    have scale : 0 < Nat.pow 10 (power.toNat + 1) := Nat.pow_pos (by decide)
    rw [tenfold]
    exact Nat.mul_ne_zero positive (Nat.ne_of_gt scale)
  have split : n.coefficient = coefficient * Nat.pow 10 power.toNat * 10 := by
    rw [tenfold, Nat.mul_assoc]
    rfl
  have denoted : quotient coefficient power =
      (coefficient * Nat.pow 10 power.toNat, 1) :=
    if_pos whole
  rw [magnitude?_of_short short some_digit (by omega) (by omega), lowers,
    split, denoted]
  exact congrArg some (nearest_mul_right (by decide) _ 1)

theorem magnitude?_of_fraction (positive : coefficient ≠ 0)
    (small : coefficient * Nat.pow 10 (power + 1).toNat < Nat.pow 2 53)
    (fraction : power < 0) (fine : -22 ≤ power)
    (same : n.coefficient = coefficient) (lowers : n.power = power) :
    n.magnitude? = some (nearest (quotient coefficient power).1
      (quotient coefficient power).2) := by
  have short : n.coefficient < Nat.pow 2 53 := by
    rw [same]
    exact Nat.lt_of_le_of_lt
      (Nat.le_mul_of_pos_right _ (Nat.pow_pos (by decide))) small
  have denoted : quotient coefficient power =
      (coefficient, Nat.pow 10 (-power).toNat) :=
    if_neg (by omega)
  rw [magnitude?_of_short short (by omega) (by omega) (by omega),
    lowers, same, denoted]

end Shapes

end Numeral

namespace Digits

theorem pow_le_of_length {n : Nat} (positive : n ≠ 0) :
    Nat.pow 10 ((Nat.toDigits 10 n).length - 1) ≤ n := by
  by_cases single : (Nat.toDigits 10 n).length - 1 = 0
  · rw [single]
    exact Nat.one_le_iff_ne_zero.mpr positive
  · have fewer : ¬ (Nat.toDigits 10 n).length ≤
        (Nat.toDigits 10 n).length - 1 := by omega
    rw [Nat.length_toDigits_le_iff (by decide) (by omega)] at fewer
    exact Nat.le_of_not_lt fewer

end Digits

namespace Multiplier

/-- The multiplier is read from the decimal that is written for it. -/
def ReadsBack (m : Multiplier) : Prop := m.numeral? >>= ofNumeral? = some m

theorem ofParts_self (m : Multiplier) : ofParts m.negative m.magnitude = m := by
  have half : Nat.pow 2 63 = 9223372036854775808 := rfl
  have word : m.bits.toNat < 18446744073709551616 := m.bits.toNat_lt
  have parts : (if m.negative then Nat.pow 2 63 else 0) + m.magnitude =
      m.bits.toNat := by
    unfold negative magnitude
    rw [half]
    split
    next high =>
      have above := of_decide_eq_true high
      omega
    next low =>
      have below := mt decide_eq_true low
      omega
  rw [ofParts, parts, UInt64.ofNat_toNat]

theorem point_le_of_short {coefficient : Nat} {power : Int}
    (positive : coefficient ≠ 0) (whole : 0 ≤ power)
    (small : coefficient * Nat.pow 10 (power + 1).toNat < Nat.pow 2 53) :
    (Nat.toDigits 10 coefficient).length + power ≤ savedWhole := by
  apply Int.not_lt.mp
  intro beyond
  let digits := (Nat.toDigits 10 coefficient).length
  have limit : savedWhole = 16 := rfl
  have some_digit : 1 ≤ digits := List.length_pos_iff.mpr Nat.toDigits_ne_nil
  have least : Nat.pow 10 (digits - 1) * Nat.pow 10 (power + 1).toNat ≤
      coefficient * Nat.pow 10 (power + 1).toNat :=
    Nat.mul_le_mul_right _ (Digits.pow_le_of_length positive)
  have joined : Nat.pow 10 (digits - 1) * Nat.pow 10 (power + 1).toNat =
      Nat.pow 10 (digits - 1 + (power + 1).toNat) := (Nat.pow_add ..).symm
  have great : Nat.pow 10 17 ≤ Nat.pow 10 (digits - 1 + (power + 1).toNat) :=
    Nat.pow_le_pow_right (by decide) (by omega)
  have order : Nat.pow 2 53 < Nat.pow 10 17 := by decide
  rw [joined] at least
  omega

/-- A short decimal is written with its coefficient, or with a zero behind
it. -/
theorem numeral?_of_short {m : Multiplier} (finite : m.isFinite = true)
    {coefficient : Nat} {power : Int}
    (written : Binary64.shortest .even m.magnitude = (coefficient, power))
    (small : coefficient * Nat.pow 10 (power + 1).toNat < Nat.pow 2 53)
    (positive : coefficient ≠ 0) :
    ∃ n, m.numeral? = some n ∧ n.negative = m.negative ∧
      (0 ≤ power ∧ n.coefficient = coefficient * Nat.pow 10 (power.toNat + 1) ∧
        n.power = -1 ∨
        power < 0 ∧ n.coefficient = coefficient ∧ n.power = power) := by
  have some_digit : 1 ≤ (Nat.toDigits 10 coefficient).length :=
    List.length_pos_iff.mpr Nat.toDigits_ne_nil
  unfold numeral?
  rw [if_pos finite, written]
  dsimp only
  split
  next whole => exact ⟨_, rfl, rfl, .inl ⟨whole.1, rfl, rfl⟩⟩
  next large =>
    have fraction : power < 0 := by
      apply Int.not_le.mp
      intro whole
      exact large ⟨whole, point_le_of_short positive whole small⟩
    split
    next =>
      refine ⟨_, rfl, rfl, .inr ⟨fraction, rfl, ?_⟩⟩
      simp only [Numeral.power, Option.getD_none]
      omega
    next =>
      refine ⟨_, rfl, rfl, .inr ⟨fraction, rfl, ?_⟩⟩
      simp only [Numeral.power, Option.getD_some]
      omega

theorem readsBack_of_zero {m : Multiplier} (zero : m.magnitude = 0) :
    m.ReadsBack := by
  have finite : m.isFinite = true := by
    rw [isFinite, zero]
    decide
  have spelled : m.numeral? = some ⟨m.negative, 0, 1, none⟩ := by
    unfold numeral?
    rw [if_pos finite, zero]
    rfl
  have read : Numeral.magnitude? ⟨m.negative, 0, 1, none⟩ = some 0 :=
    Numeral.magnitude?_of_zero rfl
  rw [ReadsBack, spelled, Option.bind_eq_bind, Option.bind_some,
    ofNumeral?, read, Option.map_some, ← zero, ofParts_self]

/-- The shortest decimal of a finite multiplier has few digits, and few of them
behind the point. -/
def IsShort (m : Multiplier) : Prop :=
  let decimal := Binary64.shortest .even m.magnitude
  m.isFinite = true ∧ decimal.1 * Nat.pow 10 (decimal.2 + 1).toNat <
    Nat.pow 2 53 ∧
    -22 ≤ decimal.2

instance (m : Multiplier) : Decidable m.IsShort :=
  inferInstanceAs (Decidable (_ ∧ _ ∧ _))

/-- A multiplier with a short decimal is read back. -/
theorem IsShort.readsBack {m : Multiplier} (short : m.IsShort) :
    m.ReadsBack := by
  rcases written : Binary64.shortest .even m.magnitude with ⟨coefficient, power⟩
  obtain ⟨finite, small, fine⟩ := short
  rw [written] at small fine
  have reads := Binary64.ofDecimal?_shortest written fine
  by_cases zero : coefficient = 0
  · apply readsBack_of_zero
    rw [zero] at reads
    exact (Option.some.inj reads).symm
  · obtain ⟨n, spelled, sign, shape⟩ :=
      numeral?_of_short finite written small zero
    have nearest := Binary64.nearest_of_ofDecimal? reads zero fine
    have read : n.magnitude? = some m.magnitude := by
      rw [← nearest]
      rcases shape with ⟨whole, same, lowers⟩ | ⟨fraction, same, lowers⟩
      · exact Numeral.magnitude?_of_tenfold zero small whole same lowers
      · exact Numeral.magnitude?_of_fraction zero small fraction
          fine same lowers
    rw [ReadsBack, spelled, Option.bind_eq_bind, Option.bind_some,
      ofNumeral?, read, Option.map_some, sign, ofParts_self]

-- 244.00001043334362 has seventeen digits and is read one place below.
example : ¬ ReadsBack ⟨0x406E800015E15BD4⟩ := by
  unfold ReadsBack
  decide +kernel

end Multiplier

end CircuitSections
