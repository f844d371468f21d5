/-!
# Blank characters

The characters with the Unicode property White_Space, trimming, and the length
of a text in UTF-8 bytes.
-/

namespace CircuitSections.Text

/-- The code points with the property White_Space, as closed ranges. -/
def blankRanges : List (Nat × Nat) :=
  [(0x09, 0x0D), (0x20, 0x20), (0x85, 0x85), (0xA0, 0xA0), (0x1680, 0x1680),
    (0x2000, 0x200A), (0x2028, 0x2029), (0x202F, 0x202F), (0x205F, 0x205F),
    (0x3000, 0x3000)]

/-- Whether a character has the property White_Space. -/
def isBlank (c : Char) : Bool :=
  blankRanges.any fun (low, high) => low ≤ c.toNat && c.toNat ≤ high

/-- A text without the blank characters at its two ends. -/
def trim (text : List Char) : List Char :=
  ((text.dropWhile isBlank).reverse.dropWhile isBlank).reverse

/-- The length of a text in UTF-8 bytes. -/
def byteLength (text : List Char) : Nat :=
  text.foldl (fun length c => length + c.utf8Size) 0

theorem dropWhile_isBlank_eq_nil_iff (text : List Char) :
    text.dropWhile isBlank = [] ↔ ∀ c ∈ text, isBlank c = true := by
  induction text with
  | nil => simp
  | cons c text induction => cases blank : isBlank c <;> simp [blank, induction]

theorem trim_eq_nil_iff (text : List Char) :
    trim text = [] ↔ ∀ c ∈ text, isBlank c = true := by
  rw [trim, List.reverse_eq_nil_iff, dropWhile_isBlank_eq_nil_iff,
    ← dropWhile_isBlank_eq_nil_iff text]
  constructor
  · intro all
    cases rest : text.dropWhile isBlank with
    | nil => rfl
    | cons c cs =>
      have started : text.dropWhile isBlank ≠ [] := by simp [rest]
      have notBlank := List.head_dropWhile_not isBlank started
      rw [all _ (List.mem_reverse.mpr (List.head_mem started))] at notBlank
      contradiction
  · intro nothing c member
    simp [nothing] at member

end CircuitSections.Text
