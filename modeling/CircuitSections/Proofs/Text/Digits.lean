import CircuitSections.Text.Digits

/-!
# Digits that are read back

Digits of a fixed number denote what is left of the number when all that lies in
front of them is dropped.
-/

namespace CircuitSections.Digits

variable {base : Nat}

theorem value?_digitChar (small : base ≤ 16) {digit : Nat}
    (below : digit < base) :
    value? base (Nat.digitChar digit) = some digit := by
  have known : ∀ digit < 16, value? 16 (Nat.digitChar digit) = some digit := by
    decide
  have found := known digit (by omega)
  rw [value?, Option.filter_eq_some_iff] at found
  rw [value?, found.1, Option.filter_some_pos (by simpa using below)]

theorem read?_append (digits : List Char) (last : Char) :
    read? base (digits ++ [last]) =
      (read? base digits).bind fun n =>
        (value? base last).map (base * n + ·) := by
  rw [read?, read?, List.foldlM_append]
  cases digits.foldlM (fun n c => (value? base c).map (base * n + ·)) 0 with
  | none => rfl
  | some n => simp

theorem mod_pow_succ (n width : Nat) :
    n % Nat.pow base (width + 1) =
      base * (n / base % Nat.pow base width) + n % base := by
  have grows : Nat.pow base (width + 1) = base * Nat.pow base width :=
    Nat.pow_succ'
  rw [grows, Nat.mod_mul, Nat.add_comm]

theorem read?_fixed (positive : 0 < base) (small : base ≤ 16) (width n : Nat) :
    read? base (fixed base width n) = some (n % Nat.pow base width) := by
  induction width generalizing n with
  | zero => simp [fixed, read?, Nat.mod_one]
  | succ width ih =>
      have last := value?_digitChar small (Nat.mod_lt n positive)
      rw [fixed, read?_append, ih, mod_pow_succ, last]
      rfl

theorem ofDigitChars_fixed (width n initial : Nat) :
    Nat.ofDigitChars 10 (fixed 10 width n) initial =
      Nat.pow 10 width * initial + n % Nat.pow 10 width := by
  induction width generalizing n with
  | zero => simp [fixed, Nat.mod_one]
  | succ width ih =>
      have last : n % 10 < 10 := Nat.mod_lt n (by decide)
      have grows : Nat.pow 10 (width + 1) = 10 * Nat.pow 10 width :=
        Nat.pow_succ'
      rw [fixed, Nat.ofDigitChars_append, ih,
        Nat.ofDigitChars_cons_digitChar_of_lt_ten last, Nat.ofDigitChars_nil,
        mod_pow_succ, grows, Nat.mul_add, Nat.mul_assoc, Nat.add_assoc]

theorem mem_fixed (positive : 0 < base) {width n : Nat} {c : Char}
    (member : c ∈ fixed base width n) : ∃ digit < base,
      c = Nat.digitChar digit := by
  induction width generalizing n with
  | zero => cases member
  | succ width ih =>
      rcases List.mem_append.mp member with earlier | last
      · exact ih earlier
      · exact ⟨n % base, Nat.mod_lt n positive, List.mem_singleton.mp last⟩

theorem isDigit_of_mem_fixed {width n : Nat} {c : Char}
    (member : c ∈ fixed 10 width n) :
    c.isDigit = true := by
  obtain ⟨digit, below, rfl⟩ := mem_fixed (by decide) member
  simp [below]

theorem head?_toDigits {n : Nat} (positive : 0 < n) :
    (Nat.toDigits 10 n).head? ≠ some '0' := by
  induction n using Nat.strongRecOn with
  | ind n ih =>
      by_cases short : n < 10
      · rw [Nat.toDigits_of_lt_base short]
        simp
        omega
      · have earlier := ih (n / 10) (by omega) (by omega)
        rw [Nat.toDigits_of_base_le (by decide) (Nat.le_of_not_lt short)]
        cases digits : Nat.toDigits 10 (n / 10) with
        | nil => exact absurd digits Nat.toDigits_ne_nil
        | cons first rest =>
            rw [digits] at earlier
            exact earlier

end CircuitSections.Digits
