import Mathlib.Data.List.Lex
import Mathlib.Data.String.Basic

/-!
# The bytes of a text

Texts are ordered by the code points of their characters.  In UTF-8 a later
character has later bytes, and no character begins with the bytes of another, so
texts are in the same order as their bytes (`bytes_strictMono`).
-/

namespace CircuitSections.Text

/-- The UTF-8 bytes of a character. -/
def charBytes (c : Char) : List ℕ := (String.utf8EncodeChar c).map UInt8.toNat

/-- The UTF-8 bytes of a text. -/
def bytes (text : String) : List ℕ := text.toUTF8.data.toList.map UInt8.toNat

theorem bytes_eq_flatMap (text : String) :
    bytes text = text.toList.flatMap charBytes := by
  have encoded : text.toUTF8.data.toList =
      text.toList.flatMap String.utf8EncodeChar := by
    rw [String.toUTF8_eq_toByteArray, ← String.utf8Encode_toList,
      List.utf8Encode, List.data_toByteArray]
  rw [bytes, encoded, List.map_flatMap]
  rfl

/-- A character has one to four bytes, according to the range of its code
point. -/
theorem charBytes_cases (c : Char) :
    (c.toNat < 128 ∧ charBytes c = [c.toNat]) ∨
    (128 ≤ c.toNat ∧ c.toNat < 2048 ∧
      charBytes c = [c.toNat / 64 + 192, c.toNat % 64 + 128]) ∨
    (2048 ≤ c.toNat ∧ c.toNat < 65536 ∧
      charBytes c =
        [c.toNat / 4096 + 224, c.toNat / 64 % 64 + 128, c.toNat % 64 + 128]) ∨
    (65536 ≤ c.toNat ∧
      charBytes c = [c.toNat / 262144 + 240, c.toNat / 4096 % 64 + 128,
        c.toNat / 64 % 64 + 128, c.toNat % 64 + 128]) := by
  have bounded : c.toNat < 1114112 := by
    rcases c.valid with low | high
    · exact Nat.lt_trans low (by decide)
    · exact high.2
  have same : c.val.toNat = c.toNat := rfl
  unfold charBytes String.utf8EncodeChar
  simp only [same]
  split
  next one =>
    refine .inl ⟨by omega, ?_⟩
    simp only [List.map_cons, List.map_nil, UInt8.toNat_ofNat']
    congr 1
    omega
  next =>
    split
    next two =>
      refine .inr (.inl ⟨by omega, by omega, ?_⟩)
      simp only [List.map_cons, List.map_nil, UInt8.toNat_ofNat',
        List.cons.injEq, and_true]
      omega
    next =>
      split
      next three =>
        refine .inr (.inr (.inl ⟨by omega, by omega, ?_⟩))
        simp only [List.map_cons, List.map_nil, UInt8.toNat_ofNat',
          List.cons.injEq, and_true]
        omega
      next =>
        refine .inr (.inr (.inr ⟨by omega, ?_⟩))
        simp only [List.map_cons, List.map_nil, UInt8.toNat_ofNat',
          List.cons.injEq, and_true]
        omega

theorem charBytes_ne_nil (c : Char) : charBytes c ≠ [] := by
  rcases charBytes_cases c with ⟨_, shape⟩ | ⟨_, _, shape⟩ |
    ⟨_, _, shape⟩ | ⟨_, shape⟩ <;>
    exact shape ▸ List.cons_ne_nil _ _

theorem charBytes_append_lt {c d : Char} (below : c < d) (x y : List ℕ) :
    charBytes c ++ x < charBytes d ++ y := by
  have less : c.toNat < d.toNat := below
  rcases charBytes_cases c with ⟨_, left⟩ | ⟨_, _, left⟩ |
    ⟨_, _, left⟩ | ⟨_, left⟩ <;>
    rcases charBytes_cases d with ⟨_, right⟩ | ⟨_, _, right⟩ |
      ⟨_, _, right⟩ | ⟨_, right⟩ <;>
    rw [left, right] <;>
    simp only [List.cons_append, List.nil_append, List.cons_lt_cons_iff] <;>
    omega

theorem flatMap_charBytes_lt {chars others : List Char}
    (below : chars < others) :
    chars.flatMap charBytes < others.flatMap charBytes := by
  induction chars generalizing others with
  | nil =>
      cases others with
      | nil => exact absurd below (lt_irrefl _)
      | cons d rest =>
          obtain ⟨byte, bytes, shape⟩ :=
            List.exists_cons_of_ne_nil (charBytes_ne_nil d)
          rw [List.flatMap_cons, shape]
          exact List.nil_lt_cons _ _
  | cons c rest ih =>
      cases others with
      | nil => exact absurd below (List.not_lt_nil _)
      | cons d others =>
          rw [List.flatMap_cons, List.flatMap_cons]
          rcases List.cons_lt_cons_iff.mp below with first | ⟨rfl, later⟩
          · exact charBytes_append_lt first _ _
          · exact List.append_left_lt (ih later)

theorem bytes_strictMono : StrictMono bytes := by
  intro text other below
  rw [bytes_eq_flatMap, bytes_eq_flatMap]
  exact flatMap_charBytes_lt (String.lt_iff_toList_lt.mp below)

end CircuitSections.Text
