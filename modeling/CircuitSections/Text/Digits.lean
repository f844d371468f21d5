/-!
# Digits of a fixed number

Numbers written with a given count of digits, and the value of a run of digits,
in a base of at most sixteen.
-/

namespace CircuitSections.Digits

/-- The last `width` digits of a number, most significant first. -/
def fixed (base : Nat) : (width : Nat) → Nat → List Char
  | 0, _ => []
  | width + 1, n => fixed base width (n / base) ++ [Nat.digitChar (n % base)]

/-- The value of a digit, whatever its case, below the base. -/
def value? (base : Nat) (c : Char) : Option Nat :=
  let value :=
    if '0' ≤ c ∧ c ≤ '9' then some (c.toNat - '0'.toNat)
    else if 'a' ≤ c ∧ c ≤ 'f' then some (c.toNat - 'a'.toNat + 10)
    else if 'A' ≤ c ∧ c ≤ 'F' then some (c.toNat - 'A'.toNat + 10)
    else none
  value.filter (· < base)

/-- The number that a run of digits denotes. -/
def read? (base : Nat) (digits : List Char) : Option Nat :=
  digits.foldlM (fun n c => (value? base c).map (base * n + ·)) 0

theorem length_fixed (base width n : Nat) :
    (fixed base width n).length = width := by
  induction width generalizing n with
  | zero => rfl
  | succ width induction => simp [fixed, induction]

end CircuitSections.Digits
