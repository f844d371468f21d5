import CircuitSections.Decimal.Numeral
import CircuitSections.Proofs.Text.Digits

/-!
# Numerals that are read back

A numeral is read back from its text, whatever stands behind it, unless that
would go on with the number.
-/

namespace CircuitSections.Numeral

/-- Nothing at the start of the text goes on with a number. -/
def Ends (text : List Char) : Prop :=
  ∀ c, text.head? = some c → c.isDigit = false ∧ c ≠ '.' ∧ c ≠ 'e' ∧ c ≠ 'E'

theorem ends_nil : Ends [] := nofun

theorem ends_cons {c : Char} {rest : List Char}
    (other : c.isDigit = false ∧ c ≠ '.' ∧ c ≠ 'e' ∧ c ≠ 'E') :
    Ends (c :: rest) := by
  intro d first
  cases first
  exact other

/-! ### Runs of digits -/

theorem scanDigits_append {digits rest : List Char} (some_digit : digits ≠ [])
    (all : ∀ c ∈ digits, c.isDigit = true)
    (ends : ∀ c, rest.head? = some c → c.isDigit = false) :
    scanDigits (digits ++ rest) = some (digits, rest) := by
  have taken : rest.takeWhile Char.isDigit = [] ∧
      rest.dropWhile Char.isDigit = rest := by
    cases rest with
    | nil => exact ⟨rfl, rfl⟩
    | cons c rest =>
        have other := ends c rfl
        constructor
        · rw [List.takeWhile_cons_of_neg (by simp [other])]
        · rw [List.dropWhile_cons_of_neg (by simp [other])]
  unfold scanDigits
  rw [List.takeWhile_append_of_pos all, List.dropWhile_append_of_pos all,
    taken.1, taken.2, List.append_nil]
  cases digits with
  | nil => contradiction
  | cons c digits => rfl

theorem scanDigits_toDigits (n : Nat) {rest : List Char}
    (ends : ∀ c, rest.head? = some c → c.isDigit = false) :
    scanDigits (Nat.toDigits 10 n ++ rest) =
      some (Nat.toDigits 10 n, rest) := by
  apply scanDigits_append Nat.toDigits_ne_nil
  · intro c member
    exact Nat.isDigit_of_mem_toDigits (by decide) (by decide) member
  · exact ends

/-! ### The parts of a numeral -/

theorem scanWhole_toDigits (n : Nat) {rest : List Char}
    (ends : ∀ c, rest.head? = some c → c.isDigit = false) :
    scanWhole (Nat.toDigits 10 n ++ rest) = some (Nat.toDigits 10 n, rest) := by
  rw [scanWhole, scanDigits_toDigits n ends]
  split
  next zeros _ spelled =>
    -- A zero in front of another digit: the number would have to be zero, and
    -- that has one digit.
    obtain ⟨digits, _⟩ := Prod.mk.injEq _ _ _ _ ▸ Option.some.inj spelled
    rcases Nat.eq_zero_or_pos n with rfl | positive
    · cases digits
    · exact absurd (congrArg List.head? digits) (Digits.head?_toDigits positive)
  next => rfl

theorem scanFraction_fixed (scale n : Nat) {rest : List Char}
    (ends : ∀ c, rest.head? = some c → c.isDigit = false ∧ c ≠ '.') :
    scanFraction
      ((if scale = 0 then [] else '.' :: Digits.fixed 10 scale n) ++ rest) =
        some (Digits.fixed 10 scale n, rest) := by
  cases scale with
  | zero =>
      cases rest with
      | nil => rfl
      | cons c rest =>
          obtain ⟨_, noPoint⟩ := ends c rfl
          simp only [if_true, List.nil_append]
          unfold scanFraction
          split
          next same =>
            cases same
            contradiction
          next => rfl
  | succ scale =>
      apply scanDigits_append
      · simp [Digits.fixed]
      · intro c member
        exact Digits.isDigit_of_mem_fixed member
      · intro c first
        exact (ends c first).1

theorem scanSigned_signed (value : Int) {rest : List Char}
    (ends : ∀ c, rest.head? = some c → c.isDigit = false) :
    scanSigned (signed value ++ rest) = some (value, rest) := by
  rw [signed]
  split
  next below =>
    simp only [List.cons_append, scanSigned, scanDigits_toDigits _ ends,
      Option.map_some, Nat.ofDigitChars_ten_toDigits]
    rw [show -(value.natAbs : Int) = value by omega]
  next above =>
    simp only [List.cons_append, scanSigned, scanDigits_toDigits _ ends,
      Option.map_some, Nat.ofDigitChars_ten_toDigits]
    rw [show (value.natAbs : Int) = value by omega]

/-- The exponent as it stands in a text. -/
def exponentText : Option Int → List Char
  | none => []
  | some exponent => 'e' :: signed exponent

theorem scanExponent_exponentText (exponent : Option Int) {rest : List Char}
    (ends : Ends rest) :
    scanExponent (exponentText exponent ++ rest) = some (exponent, rest) := by
  cases exponent with
  | some value =>
      have digits := scanSigned_signed value fun c first => (ends c first).1
      simp only [exponentText, List.cons_append, scanExponent, digits,
        Option.map_some]
  | none =>
      cases rest with
      | nil => rfl
      | cons c rest =>
          obtain ⟨_, _, noSmall, noGreat⟩ := ends c rfl
          simp only [exponentText, List.nil_append]
          unfold scanExponent
          split
          next same =>
            cases same
            contradiction
          next same =>
            cases same
            contradiction
          next => rfl

theorem head?_exponentText (exponent : Option Int) {rest : List Char}
    (ends : Ends rest) :
    ∀ c, (exponentText exponent ++ rest).head? = some c →
      c.isDigit = false ∧ c ≠ '.' := by
  intro c first
  cases exponent with
  | none =>
      obtain ⟨noDigit, noPoint, _⟩ := ends c first
      exact ⟨noDigit, noPoint⟩
  | some value =>
      cases first
      decide

/-! ### Whole numerals -/

theorem text_eq (n : Numeral) :
    n.text = (if n.negative then ['-'] else []) ++
      (pointed n.coefficient n.scale ++ exponentText n.exponent) := by
  rw [text, List.append_assoc]
  cases n.exponent <;> rfl

theorem scanUnsigned_text (n : Numeral) {rest : List Char} (ends : Ends rest) :
    scanUnsigned n.negative
      (pointed n.coefficient n.scale ++ (exponentText n.exponent ++ rest)) =
        some (n, rest) := by
  let whole := n.coefficient / Nat.pow 10 n.scale
  let fraction := n.coefficient % Nat.pow 10 n.scale
  let point := if n.scale = 0 then []
    else '.' :: Digits.fixed 10 n.scale fraction
  have afterFraction := head?_exponentText n.exponent ends
  have afterWhole : ∀ c, (point ++ (exponentText n.exponent ++ rest)).head? =
      some c →
      c.isDigit = false := by
    intro c first
    by_cases none : n.scale = 0
    · rw [show point = [] from if_pos none] at first
      exact (afterFraction c first).1
    · rw [show point = _ from if_neg none] at first
      cases first
      decide
  have coefficient : Nat.ofDigitChars 10
      (Nat.toDigits 10 whole ++ Digits.fixed 10 n.scale fraction) 0 =
        n.coefficient := by
    rw [Nat.ofDigitChars_append, Nat.ofDigitChars_ten_toDigits,
      Digits.ofDigitChars_fixed, Nat.mod_mod]
    exact Nat.div_add_mod n.coefficient (Nat.pow 10 n.scale)
  have parts :
      pointed n.coefficient n.scale ++ (exponentText n.exponent ++ rest) =
        Nat.toDigits 10 whole ++ (point ++ (exponentText n.exponent ++ rest)) :=
    List.append_assoc _ _ _
  rw [parts, scanUnsigned, scanWhole_toDigits whole afterWhole]
  simp only [Option.bind_eq_bind, Option.bind_some, point,
    scanFraction_fixed n.scale fraction afterFraction,
    scanExponent_exponentText _ ends,
    coefficient, Digits.length_fixed]
  rfl

theorem head?_pointed (coefficient scale : Nat) (rest : List Char) :
    ∃ c, (pointed coefficient scale ++ rest).head? = some c ∧
      c.isDigit = true := by
  cases digits : Nat.toDigits 10 (coefficient / Nat.pow 10 scale) with
  | nil => exact absurd digits Nat.toDigits_ne_nil
  | cons c others =>
      refine ⟨c, by rw [pointed, digits]; rfl, ?_⟩
      have member : c ∈ Nat.toDigits 10 (coefficient / Nat.pow 10 scale) := by
        rw [digits]
        exact List.mem_cons_self
      exact Nat.isDigit_of_mem_toDigits (by decide) (by decide) member

/-- Every numeral is read back from its text. -/
theorem scan_text (n : Numeral) {rest : List Char} (ends : Ends rest) :
    scan (n.text ++ rest) = some (n, rest) := by
  have parts := scanUnsigned_text n ends
  rw [text_eq]
  cases sign : n.negative with
  | true =>
      rw [sign] at parts
      simpa [scan, List.append_assoc] using parts
  | false =>
      rw [sign] at parts
      obtain ⟨c, first, digit⟩ :=
        head?_pointed n.coefficient n.scale (exponentText n.exponent ++ rest)
      simp only [Bool.false_eq_true, if_false, List.nil_append,
        List.append_assoc]
      rw [← parts]
      unfold scan
      split
      next same =>
        -- A minus sign is no digit.
        rw [same] at first
        cases first
        exact absurd digit (by decide)
      next => rfl

/-! ### Integers -/

theorem integer?_ofNat (value : Nat) : (ofNat value).integer? =
    some (value : Int) := rfl

theorem integer?_ofInt (value : Int) : (ofInt value).integer? = some value := by
  unfold integer? ofInt
  by_cases below : value < 0
  · have magnitude : value.natAbs ≠ 0 := by omega
    have restored : -(value.natAbs : Int) = value := by omega
    simp only [below, magnitude, and_self, decide_true, if_true,
      if_false, restored]
  · have restored : (value.natAbs : Int) = value := by omega
    simp only [below, and_self, decide_false, Bool.false_eq_true, if_true,
      if_false, restored]

end CircuitSections.Numeral
