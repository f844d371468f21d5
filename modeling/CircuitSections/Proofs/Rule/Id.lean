import CircuitSections.Proofs.Text.Digits
import CircuitSections.Rule.Id
import Mathlib.Algebra.GroupWithZero.Nat

/-!
# Rule ids that are read back

Every id is read from its text, although other texts are read as well.
-/

namespace CircuitSections.RuleId

theorem unhyphenate?_hyphenate {widths : List Nat} (some_group : widths ≠ [])
    {digits : List Char} (all : digits.length = widths.sum) :
    unhyphenate? widths (hyphenate widths digits) = some digits := by
  induction widths generalizing digits with
  | nil => contradiction
  | cons width widths ih =>
      rw [List.sum_cons] at all
      cases widths with
      | nil =>
          have whole : digits.length ≤ width := Nat.le_of_eq all
          simp [unhyphenate?, hyphenate, List.take_of_length_le whole, all]
      | cons next widths =>
          have taken : (digits.take width).length = width := by
            rw [List.length_take, all]
            omega
          have left : (digits.drop width).length = (next :: widths).sum := by
            rw [List.length_drop, all]
            omega
          have later := ih (List.cons_ne_nil _ _) left
          simp only [hyphenate, unhyphenate?, List.drop_left' taken,
            List.take_left' taken, later, Option.map_some,
            List.take_append_drop]

theorem mem_hyphenate {widths : List Nat} {digits : List Char} {c : Char}
    (member : c ∈ hyphenate widths digits) : c ∈ digits ∨ c = '-' := by
  induction widths generalizing digits with
  | nil => cases member
  | cons width widths ih =>
      cases widths with
      | nil => exact .inl (List.mem_of_mem_take member)
      | cons next widths =>
          rcases List.mem_append.mp member with group | later
          · exact .inl (List.mem_of_mem_take group)
          · rcases List.mem_cons.mp later with hyphen | rest
            · exact .inr hyphen
            · exact (ih rest).imp_left List.mem_of_mem_drop

theorem unwrap_eq {text : List Char}
    (plain : ∀ c ∈ text, c ≠ '\x7b' ∧ c.toLower ≠ 'u') :
    unwrap text = text := by
  unfold unwrap
  split
  next inner =>
    obtain ⟨noBrace, _⟩ := plain _ List.mem_cons_self
    contradiction
  next =>
    rw [if_neg]
    intro head
    have spelled : urnHead = 'u' :: "rn:uuid:".toList := rfl
    rw [spelled] at head
    cases text with
    | nil => exact Bool.noConfusion head
    | cons c text =>
        obtain ⟨_, other⟩ := plain c List.mem_cons_self
        rw [List.map_cons, List.isPrefixOf_cons_cons, Bool.and_eq_true,
          beq_iff_eq] at head
        exact other head.1.symm

/-- The thirty-two digits of an id. -/
def digits (id : RuleId) : List Char := Digits.fixed 16 32 id.bits.toNat

theorem digits?_hyphenate (id : RuleId) :
    digits? (hyphenate groups id.digits) = some id.digits := by
  have all : id.digits.length = 32 := Digits.length_fixed 16 32 _
  have length : (hyphenate groups id.digits).length = 36 := by
    simp [groups, hyphenate, all]
  have plain : ∀ c ∈ hyphenate groups id.digits, c ≠ '\x7b' ∧
      c.toLower ≠ 'u' := by
    intro c member
    rcases mem_hyphenate member with digit | rfl
    · obtain ⟨value, below, rfl⟩ := Digits.mem_fixed (by decide) digit
      exact (by decide : ∀ value < 16,
        Nat.digitChar value ≠ '\x7b' ∧ (Nat.digitChar value).toLower ≠ 'u')
          value below
    · decide
  rw [digits?, if_neg (by omega), unwrap_eq plain]
  exact unhyphenate?_hyphenate (List.cons_ne_nil _ _) all

theorem read?_text (id : RuleId) : read? id.text = some id := by
  have value : Digits.read? 16 id.digits = some id.bits.toNat := by
    have within : id.bits.toNat < Nat.pow 16 32 := id.bits.isLt
    rw [digits, Digits.read?_fixed (by decide) (by decide),
      Nat.mod_eq_of_lt within]
  have spelled : id.text.toList = hyphenate groups id.digits :=
    String.toList_ofList
  simp only [read?, spelled, digits?_hyphenate, value, Option.bind_eq_bind,
    Option.bind_some, BitVec.ofNat_toNat, BitVec.setWidth_eq]
  rfl

end CircuitSections.RuleId
