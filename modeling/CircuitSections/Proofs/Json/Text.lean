import CircuitSections.Json.Printer
import CircuitSections.Json.Reader
import CircuitSections.Proofs.Decimal.Numeral

/-!
# Documents that are read back

Every document is read back from the text under which it is written, down to the
spelling of its numbers, the order of its members and keys that are repeated.
-/

namespace CircuitSections.Json

/-! ### Strings -/

theorem scanText_unescape {c plain : Char} (known : unescape c = some plain)
    (rest : List Char) :
    scanText ('\\' :: c :: rest) = (scanText rest).map (consChar plain) := by
  rw [scanText.eq_3, known]
  intro _ _ _ _ _ unicode _
  rw [unicode] at known
  cases known

theorem scanText_control {c : Char} (control : c.toNat < 0x20)
    (rest : List Char) :
    scanText ('\\' :: 'u' :: (Digits.fixed 16 4 c.toNat ++ rest)) =
      (scanText rest).map (consChar c) := by
  have digits : Digits.read? 16 (Digits.fixed 16 4 c.toNat) = some c.toNat := by
    have short : c.toNat < 65536 := by omega
    rw [Digits.read?_fixed (by decide) (by decide)]
    exact congrArg some (Nat.mod_eq_of_lt short)
  have noHigh : isHighSurrogate c.toNat = false := by
    simp [isHighSurrogate]
    omega
  have noLow : isLowSurrogate c.toNat = false := by
    simp [isLowSurrogate]
    omega
  simp only [Digits.fixed, List.nil_append, List.cons_append] at digits ⊢
  rw [scanText.eq_2, digits]
  simp only [noHigh, noLow, Bool.false_eq_true, if_false, Char.ofNat_toNat]

theorem scanText_plain {c : Char} (noQuote : c ≠ '"') (noEscape : c ≠ '\\')
    (noControl : ¬ c.toNat < 0x20) (rest : List Char) :
    scanText (c :: rest) = (scanText rest).map (consChar c) := by
  rw [scanText.eq_4 c rest noQuote, if_neg noControl]
  · intro _ _ _ _ _ same _
    exact noEscape same
  · intro _ _ same _
    exact noEscape same

theorem scanText_escape (c : Char) (rest : List Char) :
    scanText (escape c ++ rest) = (scanText rest).map (consChar c) := by
  unfold escape
  split
  next => exact scanText_unescape rfl rest
  next => exact scanText_unescape rfl rest
  next => exact scanText_unescape rfl rest
  next => exact scanText_unescape rfl rest
  next => exact scanText_unescape rfl rest
  next => exact scanText_unescape rfl rest
  next => exact scanText_unescape rfl rest
  next noQuote noEscape _ _ _ _ _ =>
    split
    next control => exact scanText_control control rest
    next noControl => exact scanText_plain noQuote noEscape noControl rest

theorem scanText_flatMap_escape (characters rest : List Char) :
    scanText (characters.flatMap escape ++ '"' :: rest) =
      some (some characters, rest) := by
  induction characters with
  | nil => rfl
  | cons c others ih =>
      rw [List.flatMap_cons, List.append_assoc, scanText_escape, ih]
      rfl

theorem quote_none :
    quote none = ['"', '\\', 'u', 'd', '8', '0', '0', '"'] := by
  have spelled : "\"\\ud800\"".toList =
      ['"', '\\', 'u', 'd', '8', '0', '0', '"'] := rfl
  rw [← spelled]
  rfl

theorem scanText_half (rest : List Char) :
    scanText ('\\' :: 'u' :: 'd' :: '8' :: '0' :: '0' :: '"' :: rest) =
      some (none, rest) := by
  have unit : Digits.read? 16 ['d', '8', '0', '0'] = some 0xD800 := by decide
  have high : isHighSurrogate 0xD800 = true := by decide
  rw [scanText.eq_2, unit]
  simp only [high, if_true, scanText.eq_1]
  rfl

/-- Half of a surrogate pair is read back as no string again. -/
theorem scanString_quote (value : Option String) :
    ∃ inner, quote value = '"' :: inner ∧
      ∀ rest, scanString (inner ++ rest) = some (value, rest) := by
  cases value with
  | none =>
      refine ⟨_, quote_none, fun rest => ?_⟩
      have read := scanText_half rest
      simp only [List.cons_append, List.nil_append, scanString, read,
        Option.map_some, Option.map_none]
  | some value =>
      refine ⟨value.toList.flatMap escape ++ ['"'], rfl, fun rest => ?_⟩
      have read := scanText_flatMap_escape value.toList rest
      simp only [List.append_assoc, List.cons_append, List.nil_append,
        scanString, read, Option.map_some, String.ofList_toList]

/-! ### Values -/

/-- The text starts like that of a value, and not with white space or a closing
bracket. -/
def Starts (text : List Char) : Prop :=
  ∃ c rest, text = c :: rest ∧ isSpace c = false ∧ c ≠ ']' ∧ c ≠ '\x7d'

theorem Starts.append {text : List Char} (starts : Starts text)
    (rest : List Char) :
    Starts (text ++ rest) := by
  obtain ⟨c, others, rfl, plain⟩ := starts
  exact ⟨c, others ++ rest, rfl, plain⟩

theorem Starts.skip {text : List Char} (starts : Starts text) :
    skip text = text := by
  obtain ⟨c, rest, rfl, noSpace, _⟩ := starts
  rw [Json.skip, List.dropWhile_cons_of_neg (by simp [noSpace])]

/-- The first character of a numeral. -/
def isSignOrDigit (c : Char) : Bool := c = '-' || c.isDigit

theorem text_signOrDigit (n : Numeral) :
    ∃ c rest, n.text = c :: rest ∧ isSignOrDigit c = true := by
  obtain ⟨c, first, digit⟩ :=
    Numeral.head?_pointed n.coefficient n.scale
      (Numeral.exponentText n.exponent)
  rw [Numeral.text_eq]
  cases n.negative with
  | true => exact ⟨'-', _, rfl, rfl⟩
  | false =>
      cases spelled : Numeral.pointed n.coefficient n.scale ++
        Numeral.exponentText n.exponent with
      | nil =>
          rw [spelled] at first
          cases first
      | cons d rest =>
          rw [spelled] at first
          cases first
          exact ⟨c, rest, rfl, by simp [isSignOrDigit, digit]⟩

theorem ne_of_signOrDigit {c d : Char} (first : isSignOrDigit c = true)
    (other : isSignOrDigit d = false) : c ≠ d := by
  rintro rfl
  rw [first] at other
  cases other

theorem isSpace_of_signOrDigit {c : Char} (first : isSignOrDigit c = true) :
    isSpace c = false := by
  have blank : c ≠ ' ' := ne_of_signOrDigit first (by decide)
  have tab : c ≠ '\t' := ne_of_signOrDigit first (by decide)
  have feed : c ≠ '\n' := ne_of_signOrDigit first (by decide)
  have back : c ≠ '\r' := ne_of_signOrDigit first (by decide)
  simp [isSpace, blank, tab, feed, back]

theorem render_starts (document : Json) : Starts document.render := by
  cases document with
  | null => exact ⟨'n', _, rfl, by decide⟩
  | bool value =>
      cases value with
      | true => exact ⟨'t', _, rfl, by decide⟩
      | false => exact ⟨'f', _, rfl, by decide⟩
  | number n =>
      obtain ⟨c, rest, spelled, first⟩ := text_signOrDigit n
      refine ⟨c, rest, by rw [render, spelled], isSpace_of_signOrDigit first,
        ?_, ?_⟩
      · exact ne_of_signOrDigit first (by decide)
      · exact ne_of_signOrDigit first (by decide)
  | string value =>
      obtain ⟨inner, written, _⟩ := scanString_quote value
      exact ⟨'"', inner, written, by decide⟩
  | array items => exact ⟨'[', renderItems items, by rw [render], by decide⟩
  | object members =>
      exact ⟨'\x7b', renderMembers members, by rw [render], by decide⟩

theorem skip_render (document : Json) (rest : List Char) :
    skip (document.render ++ rest) = document.render ++ rest :=
  ((render_starts document).append rest).skip

theorem scanValue_number (fuel : Nat) (n : Numeral) {rest : List Char}
    (ends : Numeral.Ends rest) :
    scanValue (fuel + 1) (n.text ++ rest) = some (.number n, rest) := by
  have read := Numeral.scan_text n ends
  obtain ⟨c, others, spelled, first⟩ := text_signOrDigit n
  have other {d : Char} (apart : isSignOrDigit d = false) :=
    ne_of_signOrDigit first apart
  have kept := skip_render (.number n) rest
  rw [render] at kept
  rw [scanValue, kept]
  rw [spelled, List.cons_append] at read ⊢
  split
  next same => exact absurd (List.head_eq_of_cons_eq same) (other (by decide))
  next same => exact absurd (List.head_eq_of_cons_eq same) (other (by decide))
  next same => exact absurd (List.head_eq_of_cons_eq same) (other (by decide))
  next same => exact absurd (List.head_eq_of_cons_eq same) (other (by decide))
  next same => exact absurd (List.head_eq_of_cons_eq same) (other (by decide))
  next same => exact absurd (List.head_eq_of_cons_eq same) (other (by decide))
  next =>
    rw [read]
    rfl

theorem scanName_append (name : List Char) (value : Json) (rest : List Char) :
    scanName name value (name ++ rest) = some (value, rest) := by
  simp [scanName]

theorem scanValue_string (fuel : Nat) (value : Option String)
    (rest : List Char) :
    scanValue (fuel + 1) (quote value ++ rest) =
      some (.string value, rest) := by
  obtain ⟨inner, written, read⟩ := scanString_quote value
  have kept := skip_render (.string value) rest
  rw [render] at kept
  rw [scanValue, kept, written]
  simp only [List.cons_append, read, Option.map_some]

/-! ### Documents -/

theorem length_render_pos (document : Json) : 0 < document.render.length := by
  obtain ⟨c, rest, spelled, _⟩ := render_starts document
  simp [spelled]

theorem ends_of_bracket {c : Char} (bracket : c = ']' ∨ c = '\x7d' ∨ c = ',')
    (rest : List Char) :
    Numeral.Ends (c :: rest) := by
  apply Numeral.ends_cons
  rcases bracket with rfl | rfl | rfl <;> decide

/-- Whatever is written in a text of half the length of some fuel is read back
with it. -/
structure ReadsBack (fuel : Nat) : Prop where
  value : ∀ document rest, 2 * (render document).length ≤ fuel →
    Numeral.Ends rest →
    scanValue fuel (render document ++ rest) = some (document, rest)
  items : ∀ item items rest, 2 * (renderItems (item :: items)).length ≤ fuel →
    scanItems fuel (renderItems (item :: items) ++ rest) =
      some (item :: items, rest)
  members : ∀ member members rest,
    2 * (renderMembers (member :: members)).length ≤ fuel →
    scanMembers fuel (renderMembers (member :: members) ++ rest) =
      some (member :: members, rest)

theorem renderItems_starts (item : Json) (items : List Json) :
    Starts (renderItems (item :: items)) := by
  cases items with
  | nil => exact (render_starts item).append _
  | cons next items => exact (render_starts item).append _

theorem renderMembers_starts (member : Option String × Json)
    (members : List (Option String × Json)) :
    Starts (renderMembers (member :: members)) := by
  obtain ⟨name, value⟩ := member
  obtain ⟨inner, written, _⟩ := scanString_quote name
  have starts : Starts (quote name) := ⟨'"', inner, written, by decide⟩
  cases members with
  | nil =>
      rw [renderMembers]
      exact (starts.append _).append _
  | cons next members =>
      rw [renderMembers]
      exact (starts.append _).append _

theorem scanValue_items (fuel : Nat) {text rest : List Char} {items : List Json}
    (starts : Starts text) (read : scanItems fuel text = some (items, rest)) :
    scanValue (fuel + 1) ('[' :: text) = some (.array items, rest) := by
  have opened : skip ('[' :: text) = '[' :: text := rfl
  have kept := starts.skip
  obtain ⟨c, others, rfl, _, noBracket, _⟩ := starts
  rw [scanValue, opened]
  simp only [kept]
  split
  next same => exact absurd (List.head_eq_of_cons_eq same) noBracket
  next =>
    rw [read]
    rfl

theorem scanValue_members (fuel : Nat) {text rest : List Char}
    {members : List (Option String × Json)} (starts : Starts text)
    (read : scanMembers fuel text = some (members, rest)) :
    scanValue (fuel + 1) ('\x7b' :: text) = some (.object members, rest) := by
  have opened : skip ('\x7b' :: text) = '\x7b' :: text := rfl
  have kept := starts.skip
  obtain ⟨c, others, rfl, _, _, noBrace⟩ := starts
  rw [scanValue, opened]
  simp only [kept]
  split
  next same => exact absurd (List.head_eq_of_cons_eq same) noBrace
  next =>
    rw [read]
    rfl

namespace ReadsBack

variable {fuel : Nat}

theorem succ_value (earlier : ReadsBack fuel) (document : Json)
    {rest : List Char} (enough : 2 * document.render.length ≤ fuel + 1)
    (ends : Numeral.Ends rest) :
    scanValue (fuel + 1) (document.render ++ rest) = some (document, rest) := by
  cases document with
  | null => exact scanName_append "ull".toList .null rest
  | bool value =>
      cases value with
      | true => exact scanName_append "rue".toList (.bool true) rest
      | false => exact scanName_append "alse".toList (.bool false) rest
  | number n =>
      rw [render]
      exact scanValue_number fuel n ends
  | string value =>
      rw [render]
      exact scanValue_string fuel value rest
  | array items =>
      rw [render] at enough ⊢
      cases items with
      | nil => rfl
      | cons item items =>
          rw [List.length_cons] at enough
          apply scanValue_items fuel
            ((renderItems_starts item items).append rest)
          exact earlier.items item items rest (by omega)
  | object members =>
      rw [render] at enough ⊢
      cases members with
      | nil => rfl
      | cons member members =>
          rw [List.length_cons] at enough
          apply scanValue_members fuel
            ((renderMembers_starts member members).append rest)
          exact earlier.members member members rest (by omega)

theorem succ_items (earlier : ReadsBack fuel) (item : Json) (items : List Json)
    {rest : List Char}
    (enough : 2 * (renderItems (item :: items)).length ≤ fuel + 1) :
    scanItems (fuel + 1) (renderItems (item :: items) ++ rest) =
      some (item :: items, rest) := by
  cases items with
  | nil =>
      rw [renderItems, List.length_append, List.length_singleton] at enough
      have first := earlier.value item (']' :: rest) (by omega)
        (ends_of_bracket (.inl rfl) rest)
      rw [renderItems, List.append_assoc, List.singleton_append,
        scanItems, first]
      rfl
  | cons next items =>
      rw [renderItems, List.length_append, List.length_cons] at enough
      have first :=
        earlier.value item (',' :: (renderItems (next :: items) ++ rest))
          (by omega)
          (ends_of_bracket (.inr (.inr rfl)) _)
      have later := earlier.items next items rest (by omega)
      have comma (text : List Char) : skip (',' :: text) = ',' :: text := rfl
      rw [renderItems, List.append_assoc, List.cons_append, scanItems, first]
      simp only [comma, later, Option.map_some]

theorem succ_members (earlier : ReadsBack fuel) (member : Option String × Json)
    (members : List (Option String × Json)) {rest : List Char}
    (enough : 2 * (renderMembers (member :: members)).length ≤ fuel + 1) :
    scanMembers (fuel + 1) (renderMembers (member :: members) ++ rest) =
      some (member :: members, rest) := by
  obtain ⟨name, value⟩ := member
  obtain ⟨inner, written, read⟩ := scanString_quote name
  have quoted (text : List Char) : skip ('"' :: text) = '"' :: text := rfl
  have colon (text : List Char) : skip (':' :: text) = ':' :: text := rfl
  cases members with
  | nil =>
      simp only [renderMembers, List.length_append, List.length_cons,
        List.length_nil] at enough
      have first := earlier.value value ('\x7d' :: rest) (by omega)
        (ends_of_bracket (.inr (.inl rfl)) rest)
      have brace (text : List Char) : skip ('\x7d' :: text) = '\x7d' :: text :=
        rfl
      simp only [renderMembers, written, List.cons_append, List.append_assoc,
        List.nil_append, scanMembers, quoted, read, colon, first, brace]
  | cons next members =>
      simp only [renderMembers, List.length_append, List.length_cons] at enough
      have first :=
        earlier.value value (',' :: (renderMembers (next :: members) ++ rest))
          (by omega) (ends_of_bracket (.inr (.inr rfl)) _)
      have later := earlier.members next members rest (by omega)
      have comma (text : List Char) : skip (',' :: text) = ',' :: text := rfl
      simp only [renderMembers, written, List.cons_append, List.append_assoc,
        scanMembers, quoted, read, colon, first, comma, later, Option.map_some]

theorem succ (earlier : ReadsBack fuel) : ReadsBack (fuel + 1) where
  value document _ enough ends := earlier.succ_value document enough ends
  items item items _ enough := earlier.succ_items item items enough
  members member members _ enough := earlier.succ_members member members enough

theorem zero : ReadsBack 0 where
  value document _ enough _ := by
    have positive := length_render_pos document
    omega
  items item items _ enough := by
    obtain ⟨c, others, spelled, _⟩ := renderItems_starts item items
    simp [spelled] at enough
  members member members _ enough := by
    obtain ⟨c, others, spelled, _⟩ := renderMembers_starts member members
    simp [spelled] at enough

end ReadsBack

theorem readsBack (fuel : Nat) : ReadsBack fuel := by
  induction fuel with
  | zero => exact .zero
  | succ fuel earlier => exact earlier.succ

/-- Every document is read back from its text. -/
theorem read?_write (document : Json) : read? document.write.toList =
    some document := by
  have text : document.write.toList = document.render := by simp [write]
  have scanned :=
    (readsBack (2 * document.render.length + 1)).value document [] (by omega)
      Numeral.ends_nil
  rw [List.append_nil] at scanned
  rw [read?, text, scanned]
  rfl

end CircuitSections.Json
