import CircuitSections.Text.Blank
import Mathlib.Data.List.DropRight
import Mathlib.Data.String.Basic

/-!
# Trimmed texts

What is left of a text without the blank characters at its two ends: the part
between them that neither starts nor ends with one.  There is exactly one such
part, and `trim` finds it.
-/

namespace CircuitSections.Text

/-- A text of blank characters only. -/
def Blank (text : List Char) : Prop := ∀ c ∈ text, isBlank c = true

instance (text : List Char) : Decidable (Blank text) :=
  inferInstanceAs (Decidable (∀ c ∈ text, isBlank c = true))

/-- A text is a core with blank characters around it. -/
structure Trimmed (text core : List Char) : Prop where
  around : ∃ before after, text = before ++ core ++ after ∧
    Blank before ∧ Blank after
  starts : ∀ first : core ≠ [], isBlank (core.head first) = false
  ends : ∀ last : core ≠ [], isBlank (core.getLast last) = false

theorem trim_eq (text : List Char) :
    trim text = (text.dropWhile isBlank).rdropWhile isBlank := rfl

theorem trimmed_trim (text : List Char) : Trimmed text (trim text) where
  around := by
    let behind := text.dropWhile isBlank
    refine ⟨text.takeWhile isBlank, behind.rtakeWhile isBlank, ?_, ?_, ?_⟩
    · rw [List.append_assoc, trim_eq, List.rdropWhile_append_rtakeWhile,
        List.takeWhile_append_dropWhile]
    · exact fun c taken => List.mem_takeWhile_imp taken
    · exact fun c taken => List.mem_rtakeWhile_imp taken
  starts first := by
    have before : trim text <+: text.dropWhile isBlank :=
      List.rdropWhile_prefix _ _
    rw [before.head first]
    exact List.head_dropWhile_not _ _
  ends last := Bool.eq_false_iff.mpr (List.rdropWhile_last_not _ _ last)

theorem Trimmed.eq_trim {text core : List Char} (trimmed : Trimmed text core) :
    core = trim text := by
  obtain ⟨⟨before, after, rfl, beforeBlank, afterBlank⟩, starts, ends⟩ :=
    trimmed
  by_cases none : core = []
  · subst none
    symm
    apply (trim_eq_nil_iff _).mpr
    intro c listed
    rw [List.append_nil] at listed
    exact (List.mem_append.mp listed).elim (beforeBlank c) (afterBlank c)
  · have front : (before ++ core ++ after).dropWhile isBlank =
        core ++ after := by
      rw [List.append_assoc, List.dropWhile_append_of_pos beforeBlank]
      obtain ⟨first, rest, rfl⟩ := List.exists_cons_of_ne_nil none
      have sharp : isBlank first = false := starts none
      rw [List.cons_append, List.dropWhile_cons_of_neg (by simp [sharp])]
    have back : (core ++ after).reverse.dropWhile isBlank = core.reverse := by
      have sharp : isBlank (core.getLast none) = false := ends none
      have backwards :
          core.reverse = core.getLast none :: core.dropLast.reverse := by
        rw [← List.reverse_concat, List.dropLast_concat_getLast]
      rw [List.reverse_append, List.dropWhile_append_of_pos, backwards,
        List.dropWhile_cons_of_neg (by simp [sharp])]
      intro c listed
      exact afterBlank c (List.mem_reverse.mp listed)
    rw [trim, front, back, List.reverse_reverse]

/-- Trimming takes the blank characters at the ends, and nothing else. -/
theorem trimmed_iff {text core : List Char} : Trimmed text core ↔
    core = trim text :=
  ⟨Trimmed.eq_trim, fun same => same ▸ trimmed_trim text⟩

theorem byteLength_eq (text : List Char) :
    byteLength text = (String.ofList text).utf8ByteSize := by
  have running (length : Nat) :
      text.foldl (fun length c => length + c.utf8Size) length =
        length + String.utf8Len text := by
    induction text generalizing length with
    | nil => rfl
    | cons c rest ih =>
        rw [List.foldl_cons, ih, String.utf8Len_cons]
        omega
  rw [String.utf8ByteSize_ofList]
  exact (running 0).trans (Nat.zero_add _)

end CircuitSections.Text
