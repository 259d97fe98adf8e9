import SyntaxForest.Proofs.Document.Reading

/-!
# The characters of a document

`Json.chars` is the text of a value as a list of characters, which is what `Json.write` appends;
`Json.depth` and `Json.floats` are what the reader is sensitive to besides the shape of a value: how
many brackets are open at the same time, and the numbers that need not be whole. A quoted text is
read back as it was.
-/

namespace SyntaxForest.Document

open Numeric

/-! ## Spacing -/

/-- The characters before an element, a member or a closing bracket. -/
def Spacing.gap (sp : Spacing) : List Char := sp.lineBreak.toList

theorem Spacing.blank_gap (sp : Spacing) : Blank sp.gap := by
  cases sp with
  | compact => exact Blank.nil
  | indented level =>
    intro c hc
    simp only [gap, lineBreak, String.toList_ofList, List.mem_cons, List.mem_replicate] at hc
    rcases hc with rfl | ⟨-, rfl⟩ <;> rfl

/-- A bracket or comma ends a number, with or without blanks before it. -/
theorem Spacing.endsNumber_gap (sp : Spacing) {c : Char} {s : List Char}
    (h : EndsNumber (c :: s)) : EndsNumber (sp.gap ++ c :: s) := .append sp.blank_gap h

/-! ## Quoted texts -/

/-- The characters of a quoted text between its quotes. -/
def escapedChars (s : List Char) : List Char := s.flatMap fun c => (escaped c).toList

/-- The characters of a quoted text behind its opening quote. -/
def quotedTail (s : String) : List Char := escapedChars s.toList ++ ['"']

theorem appendQuoted_toList (out s : String) :
    (appendQuoted out s).toList = out.toList ++ '"' :: quotedTail s := by
  have fold : ∀ (cs : List Char) (out : String),
      (cs.foldl (fun out c => out ++ escaped c) out).toList = out.toList ++ escapedChars cs := by
    intro cs
    induction cs with
    | nil => simp [escapedChars]
    | cons c cs ih =>
      intro out
      simp [ih, escapedChars]
  simp [appendQuoted, fold, quotedTail]

/-- A character and a way to spell it inside a quoted text. -/
inductive CharText : Char → List Char → Prop
  | plain {c : Char} (hquote : c ≠ '"') (hbackslash : c ≠ '\\')
      (hcontrol : Reader.isControl c = false) : CharText c [c]
  | short {c d : Char} (h : Reader.shortEscape? d = some c) : CharText c ['\\', d]
  | hex {a b c d : Char} {n : Nat} (h : Reader.hexNumber? a b c d = some n)
      (hlow : Reader.isLowSurrogate n = false) (hhigh : Reader.isHighSurrogate n = false) :
      CharText (Char.ofNat n) ['\\', 'u', a, b, c, d]
  | pair {a b c d a' b' c' d' : Char} {high low : Nat} (h : Reader.hexNumber? a b c d = some high)
      (hhigh : Reader.isHighSurrogate high = true) (h' : Reader.hexNumber? a' b' c' d' = some low)
      (hlow : Reader.isLowSurrogate low = true) :
      CharText (Char.ofNat (Reader.surrogatePair high low))
        ['\\', 'u', a, b, c, d, '\\', 'u', a', b', c', d']

/-- A text and a way to spell it between quotes. -/
def QuotedText (t : String) (q : List Char) : Prop :=
  ∃ pieces : List (Char × List Char), (∀ piece ∈ pieces, CharText piece.1 piece.2) ∧
    t.toList = pieces.map Prod.fst ∧ q = '"' :: (pieces.flatMap Prod.snd ++ ['"'])

/-- A control character is written with two zeros and its two hexadecimal digits. -/
private theorem hexNumber_control : ∀ n, n < 32 →
    ∃ a b, (if n < 16 then "\\u000" ++ String.ofList (Nat.toDigits 16 n)
        else "\\u00" ++ String.ofList (Nat.toDigits 16 n)).toList
      = ['\\', 'u', '0', '0', a, b] ∧ Reader.hexNumber? '0' '0' a b = some n := by
  intro n hn
  by_cases h : n < 16
  · refine ⟨'0', n.digitChar, ?_, ?_⟩
    · simp [h, Nat.toDigits_of_lt_base h]
    · revert n
      decide
  · refine ⟨(n / 16).digitChar, (n % 16).digitChar, ?_, ?_⟩
    · simp [h, Nat.toDigits_of_base_le (by omega : 1 < 16) (by omega : 16 ≤ n),
        Nat.toDigits_of_lt_base (by omega : n / 16 < 16)]
    · have all : ∀ m, m < 32 →
          Reader.hexNumber? '0' '0' (m / 16).digitChar (m % 16).digitChar = some m := by decide
      exact all n hn

/-- A character is spelled by what is written for it. -/
theorem charText_escaped (c : Char) : CharText c (escaped c).toList := by
  have short {e : Char} (he : Reader.shortEscape? e = some c) : CharText c ['\\', e] := .short he
  rw [escaped]
  split
  · next h => exact short (e := '"') (by simp [h, Reader.shortEscape?])
  split
  · next h => exact short (e := '\\') (by simp [h, Reader.shortEscape?])
  split
  · next h => exact short (e := 'b') (by simp [h, Reader.shortEscape?])
  split
  · next h => exact short (e := 'f') (by simp [h, Reader.shortEscape?])
  split
  · next h => exact short (e := 'n') (by simp [h, Reader.shortEscape?])
  split
  · next h => exact short (e := 'r') (by simp [h, Reader.shortEscape?])
  split
  · next h => exact short (e := 't') (by simp [h, Reader.shortEscape?])
  -- What is left is a control character without a short form, or stands for itself.
  by_cases hc : c.toNat < 32
  · obtain ⟨a, b, htext, hhex⟩ := hexNumber_control c.toNat hc
    have hlow : Reader.isLowSurrogate c.toNat = false := by simp [Reader.isLowSurrogate]; omega
    have hhigh : Reader.isHighSurrogate c.toNat = false := by simp [Reader.isHighSurrogate]; omega
    have hspelled : CharText c ['\\', 'u', '0', '0', a, b] := by
      simpa using CharText.hex hhex hlow hhigh
    by_cases h16 : c.toNat < 16
    · rw [if_pos h16] at htext ⊢
      rwa [htext]
    · rw [if_neg h16] at htext ⊢
      rwa [if_pos hc, htext]
  · rw [if_neg (by omega), if_neg hc]
    have hcontrol : Reader.isControl c = false := by simp [Reader.isControl, hc]
    simpa using CharText.plain ‹_› ‹_› hcontrol

theorem quotedText_quotedTail (t : String) : QuotedText t ('"' :: quotedTail t) := by
  refine ⟨t.toList.map fun c => (c, (escaped c).toList), ?_, by simp [Function.comp_def], ?_⟩
  · simpa using fun c _ => charText_escaped c
  · simp [quotedTail, escapedChars, List.flatMap_map]

namespace Reader

theorem read_fourHex {a b c d : Char} {n : Nat} (s : List Char)
    (h : hexNumber? a b c d = some n) : fourHex.read (a :: b :: c :: d :: s) = some (n, s) := by
  simp [read, fourHex, h, Except.toOption]

theorem read_shortEscape {c d : Char} (s : List Char) (h : shortEscape? c = some d) :
    shortEscape.read (c :: s) = some (d, s) := by
  simp [shortEscape, read_next_cons, h, Except.toOption]

/-- One character of a quoted text is taken, however it is spelled. -/
theorem read_textStep {c : Char} {t : List Char} (h : CharText c t) (before s : List Char) :
    (textStep before).read (t ++ s) = some (.inl (c :: before), s) := by
  cases h with
  | plain hquote hbackslash hcontrol =>
    simp [textStep, read_follow, hquote, hbackslash, hcontrol]
  | @short _ e h =>
    have hu : e ≠ 'u' := by
      rintro rfl
      cases h
    simp [textStep, read_follow, escape, hu, read_shortEscape s h]
  | hex h hlow hhigh => simp [textStep, read_follow, escape, codePoint, read_fourHex _ h, hlow, hhigh]
  | @pair a b c d a' b' c' d' high low h hhigh h' hlow =>
    have hnotLow : isLowSurrogate high = false := by
      simp only [isHighSurrogate, isLowSurrogate, Bool.and_eq_true, decide_eq_true_eq,
        Bool.and_eq_false_iff, decide_eq_false_iff_not] at hhigh ⊢
      omega
    simp [textStep, read_follow, escape, codePoint, lowSurrogate, read_next_cons, Except.toOption,
      read_fourHex _ h, read_fourHex _ h', hnotLow, hhigh, hlow]

theorem read_textSteps {pieces : List (Char × List Char)}
    (h : ∀ piece ∈ pieces, CharText piece.1 piece.2) (before s : List Char) :
    (iterate textStep before).read (pieces.flatMap Prod.snd ++ s) =
      (iterate textStep ((pieces.map Prod.fst).reverse ++ before)).read s := by
  induction pieces generalizing before with
  | nil => rfl
  | cons piece pieces ih =>
    rw [List.forall_mem_cons] at h
    rw [List.flatMap_cons, List.append_assoc, read_iterate, read_textStep h.1]
    simpa using ih h.2 (piece.1 :: before)

/-- A quoted text is read from behind its opening quote, however its characters are spelled. -/
theorem read_text_of_quoted {t : String} {q : List Char} (h : QuotedText t q) :
    ∃ r, q = '"' :: r ∧ ∀ s, text.read (r ++ s) = some (t, s) := by
  obtain ⟨pieces, hpieces, ht, rfl⟩ := h
  refine ⟨_, rfl, fun s => ?_⟩
  rw [text, List.append_assoc, read_textSteps hpieces, read_iterate, ← ht]
  simp [textStep, read_follow]

/-- A quoted text is read back from behind its opening quote. -/
theorem read_text (t : String) (s : List Char) : text.read (quotedTail t ++ s) = some (t, s) := by
  obtain ⟨r, hr, hread⟩ := read_text_of_quoted (quotedText_quotedTail t)
  rw [(List.cons.inj hr).2, hread]

end Reader

namespace Json

/-! ## Values -/

mutual

/-- The characters of a value. -/
def chars (sp : Spacing) : Json → List Char
  | .null => ['n', 'u', 'l', 'l']
  | .int value => (intText value).toList
  | .float value => (documentLayout.text value).toList
  | .text value => '"' :: quotedTail value
  | .array items => match items with
    | [] => ['[', ']']
    | item :: items =>
      '[' :: (sp.deeper.gap ++ item.chars sp.deeper ++ itemsChars sp.deeper items ++ sp.gap ++
        [']'])
  | .object members => match members with
    | [] => ['\x7b', '\x7d']
    | (key, value) :: members =>
      '\x7b' :: (sp.deeper.gap ++ '"' :: quotedTail key ++ sp.deeper.colon.toList
        ++ value.chars sp.deeper ++ membersChars sp.deeper members ++ sp.gap ++ ['\x7d'])

/-- The characters of the further elements of an array. -/
def itemsChars (sp : Spacing) : List Json → List Char
  | [] => []
  | item :: items => ',' :: (sp.gap ++ item.chars sp ++ itemsChars sp items)

/-- The characters of the further members of an object. -/
def membersChars (sp : Spacing) : List (String × Json) → List Char
  | [] => []
  | (key, value) :: members =>
    ',' :: (sp.gap ++ '"' :: quotedTail key ++ sp.colon.toList ++ value.chars sp
      ++ membersChars sp members)

end

mutual

theorem write_toList (sp : Spacing) (j : Json) (out : String) :
    (j.write sp out).toList = out.toList ++ j.chars sp := by
  match j with
  | .null => simp [write, chars]
  | .int value => simp [write, chars]
  | .float value => simp [write, chars]
  | .text value => simp [write, chars, appendQuoted_toList]
  | .array [] => simp [write, chars]
  | .array (item :: items) =>
    simp [write, chars, writeItems_toList sp.deeper items, write_toList sp.deeper item,
      Spacing.gap]
  | .object [] => simp [write, chars]
  | .object ((key, value) :: members) =>
    simp [write, chars, writeMembers_toList sp.deeper members, write_toList sp.deeper value,
      appendQuoted_toList, Spacing.gap]

theorem writeItems_toList (sp : Spacing) (items : List Json) (out : String) :
    (writeItems sp items out).toList = out.toList ++ itemsChars sp items := by
  match items with
  | [] => simp [writeItems, itemsChars]
  | item :: items =>
    simp [writeItems, itemsChars, writeItems_toList sp items, write_toList sp item, Spacing.gap]

theorem writeMembers_toList (sp : Spacing) (members : List (String × Json)) (out : String) :
    (writeMembers sp members out).toList = out.toList ++ membersChars sp members := by
  match members with
  | [] => simp [writeMembers, membersChars]
  | (key, value) :: members =>
    simp [writeMembers, membersChars, writeMembers_toList sp members, write_toList sp value,
      appendQuoted_toList, Spacing.gap]

end

/-- An array or object starts with its bracket. -/
theorem chars_array (sp : Spacing) (items : List Json) :
    ∃ t, (array items).chars sp = '[' :: t := by
  cases items <;> simp [chars]

theorem chars_object (sp : Spacing) (members : List (String × Json)) :
    ∃ t, (object members).chars sp = '\x7b' :: t := by
  cases members <;> simp [chars]

/-! ## What the reader is sensitive to -/

mutual

/-- How many arrays and objects are nested in each other. -/
def depth : Json → Nat
  | .array items => itemsDepth items + 1
  | .object members => membersDepth members + 1
  | _ => 0

def itemsDepth : List Json → Nat
  | [] => 0
  | item :: items => max item.depth (itemsDepth items)

def membersDepth : List (String × Json) → Nat
  | [] => 0
  | (_, value) :: members => max value.depth (membersDepth members)

end

mutual

/-- The numbers in a value that need not be whole. -/
def floats : Json → List Double
  | .float value => [value]
  | .array items => itemsFloats items
  | .object members => membersFloats members
  | _ => []

def itemsFloats : List Json → List Double
  | [] => []
  | item :: items => item.floats ++ itemsFloats items

def membersFloats : List (String × Json) → List Double
  | [] => []
  | (_, value) :: members => value.floats ++ membersFloats members

end

/-- A value is not nested deeper than the bound, and every number in it is as `P` demands. -/
def Within (P : Double → Prop) (bound : Nat) (j : Json) : Prop :=
  j.depth ≤ bound ∧ ∀ x ∈ j.floats, P x

variable {P : Double → Prop} {bound : Nat}

theorem within_array {items : List Json} :
    (array items).Within P (bound + 1) ↔ ∀ item ∈ items, item.Within P bound := by
  induction items with
  | nil => simp [Within, depth, itemsDepth, floats, itemsFloats]
  | cons item items ih =>
    simp only [Within, depth, itemsDepth, floats, itemsFloats, Nat.add_le_add_iff_right,
      Nat.max_le, List.mem_append, List.forall_mem_cons] at ih ⊢
    rw [← ih]
    grind

theorem within_object {members : List (String × Json)} :
    (object members).Within P (bound + 1) ↔ ∀ member ∈ members, member.2.Within P bound := by
  induction members with
  | nil => simp [Within, depth, membersDepth, floats, membersFloats]
  | cons member members ih =>
    simp only [Within, depth, membersDepth, floats, membersFloats, Nat.add_le_add_iff_right,
      Nat.max_le, List.mem_append, List.forall_mem_cons] at ih ⊢
    rw [← ih]
    grind

end Json

end SyntaxForest.Document
