import SyntaxForest.Proofs.Document.Numbers
import SyntaxForest.Proofs.Document.Written

/-!
# Passing over what is well formed

`WellFormed` is the grammar of documents: words, numbers, quoted texts, arrays and objects, nested to
any depth, with blanks before every token. Whatever it derives is passed over as the value of a
member that nobody asked for (`WellFormed.skips`).

Skipping keeps the open arrays and objects in a list. `Reader.resume` is what it still has to do
behind a value inside them, and a value is passed over when skipping comes to that, whatever is open.
-/

namespace SyntaxForest.Document

open Numeric

/-! ## Punctuation -/

/-- The further parts of an array or object behind the first, each behind a comma, and the closing
bracket. -/
inductive Further (closing : Char) : List (List Char) → List Char → Prop
  | close {blanks : List Char} (hb : Blank blanks) : Further closing [] (blanks ++ [closing])
  | part {blanks part text : List Char} {parts : List (List Char)} (hb : Blank blanks)
      (h : Further closing parts text) :
      Further closing (part :: parts) (blanks ++ ',' :: (part ++ text))

/-- The parts of an array or object from behind its opening bracket, and the closing one. -/
inductive Inside (closing : Char) : List (List Char) → List Char → Prop
  | empty {blanks : List Char} (hb : Blank blanks) : Inside closing [] (blanks ++ [closing])
  | parts {part text : List Char} {parts : List (List Char)} (h : Further closing parts text) :
      Inside closing (part :: parts) (part ++ text)

/-- A member of an object as it is spelled: a key between quotes, a colon and a value, with blanks
before the key and before the colon. Blanks before the value belong to its text. -/
structure Member where
  before : List Char
  key : List Char
  between : List Char
  value : List Char

namespace Member

def text (m : Member) : List Char := m.before ++ (m.key ++ (m.between ++ ':' :: m.value))

/-- Nothing but blanks stands before the key and before the colon. -/
structure Spaced (m : Member) : Prop where
  before : Blank m.before
  between : Blank m.between

end Member

/-- No number goes on with a closing bracket or a comma. -/
theorem Further.endsNumber {closing : Char} (hclosing : closing = ']' ∨ closing = '\x7d')
    {parts : List (List Char)} {text : List Char} (h : Further closing parts text)
    (rest : List Char) : EndsNumber (text ++ rest) := by
  have hends (s : List Char) : EndsNumber (closing :: s) := by
    rcases hclosing with rfl | rfl <;> exact .cons (by decide) (by decide) (by decide) (by decide)
  cases h with
  | close hb =>
    rw [List.append_assoc]
    exact .append hb (hends rest)
  | part hb h =>
    rw [List.append_assoc]
    exact .append hb (.cons (by decide) (by decide) (by decide) (by decide))

/-! ## The grammar -/

/-- A character of a quoted text as it is spelled, whatever an escape stands for. -/
inductive RawChar : List Char → Prop
  | plain {c : Char} (hquote : c ≠ '"') (hbackslash : c ≠ '\\')
      (hcontrol : Reader.isControl c = false) : RawChar [c]
  | short {c d : Char} (h : Reader.shortEscape? c = some d) : RawChar ['\\', c]
  | hex {a b c d : Char} {n : Nat} (h : Reader.hexNumber? a b c d = some n) :
      RawChar ['\\', 'u', a, b, c, d]

/-- A text between quotes as it is spelled. -/
def RawText (t : List Char) : Prop :=
  ∃ pieces : List (List Char), (∀ piece ∈ pieces, RawChar piece) ∧
    t = '"' :: (pieces.flatten ++ ['"'])

/-- The integer part of a number: zero, or digits of which the first is not zero. -/
def WholeText (t : List Char) : Prop :=
  t = ['0'] ∨ ∃ d ds, d.isDigit = true ∧ d ≠ '0' ∧ AllDigits ds ∧ t = d :: ds

/-- The exponent of a number with its letter and the sign that it may have, or nothing. -/
def PowerText (t : List Char) : Prop :=
  t = [] ∨ ∃ letter sign ds, (letter = 'e' ∨ letter = 'E') ∧
    (sign = [] ∨ sign = ['+'] ∨ sign = ['-']) ∧ ds ≠ [] ∧ AllDigits ds ∧
    t = letter :: (sign ++ ds)

/-- A number without its sign. -/
def UnsignedText (t : List Char) : Prop :=
  ∃ whole fraction power, WholeText whole ∧ FractionText fraction ∧ PowerText power ∧
    t = whole ++ (fraction ++ power)

/-- The words for values. -/
def words : List (List Char) :=
  [['n', 'u', 'l', 'l'], ['t', 'r', 'u', 'e'], ['f', 'a', 'l', 's', 'e']]

/-- Texts of values, with blanks before every token. -/
inductive WellFormed : List Char → Prop
  | word {blanks word : List Char} (hb : Blank blanks) (h : word ∈ words) :
      WellFormed (blanks ++ word)
  | positive {blanks t : List Char} (hb : Blank blanks) (h : UnsignedText t) :
      WellFormed (blanks ++ t)
  | negative {blanks t : List Char} (hb : Blank blanks) (h : UnsignedText t) :
      WellFormed (blanks ++ '-' :: t)
  | text {blanks t : List Char} (hb : Blank blanks) (h : RawText t) : WellFormed (blanks ++ t)
  | array {blanks inside : List Char} {parts : List (List Char)} (hb : Blank blanks)
      (hparts : ∀ part ∈ parts, WellFormed part) (h : Inside ']' parts inside) :
      WellFormed (blanks ++ '[' :: inside)
  | object {blanks inside : List Char} {members : List Member} (hb : Blank blanks)
      (hspaced : ∀ m ∈ members, m.Spaced) (hkeys : ∀ m ∈ members, RawText m.key)
      (hvalues : ∀ m ∈ members, WellFormed m.value)
      (h : Inside '\x7d' (members.map Member.text) inside) :
      WellFormed (blanks ++ '\x7b' :: inside)

/-! ## Numbers are passed over -/

theorem skipDigits_append {ds rest : List Char} (hne : ds ≠ []) (hds : AllDigits ds)
    (hr : startsWithDigit rest = false) : skipDigits (ds ++ rest) = .ok rest := by
  have hstart : startsWithDigit (ds ++ rest) = true := by
    cases ds with
    | nil => exact absurd rfl hne
    | cons c ds => exact hds.cons.1
  rw [skipDigits, if_pos hstart, dropDigits_append hds hr]

theorem PowerText.startsWithDigit {t rest : List Char} (h : PowerText t)
    (hr : EndsNumber rest) : startsWithDigit (t ++ rest) = false := by
  rcases h with rfl | ⟨letter, sign, ds, rfl | rfl, -, -, -, rfl⟩
  · exact hr.startsWithDigit
  · rfl
  · rfl

theorem PowerText.skip {t rest : List Char} (h : PowerText t) (hr : EndsNumber rest) :
    skipExponent (t ++ rest) = .ok rest := by
  rcases h with rfl | ⟨letter, sign, ds, hletter, hsign, hne, hds, rfl⟩
  · cases rest with
    | nil => rfl
    | cons c s => simp [skipExponent, (hr c s rfl).2.2]
  · have hdigits := skipDigits_append hne hds hr.startsWithDigit
    have hsigned : skipSigned (sign ++ (ds ++ rest)) = .ok rest := by
      rcases hsign with rfl | rfl | rfl
      · cases ds with
        | nil => exact absurd rfl hne
        | cons d ds =>
          have hd := hds.cons.1
          have hplus : d ≠ '+' ∧ d ≠ '-' := by constructor <;> rintro rfl <;> cases hd
          simpa [skipSigned, hplus] using hdigits
      · simpa [skipSigned] using hdigits
      · simpa [skipSigned] using hdigits
    simpa [skipExponent, hletter] using hsigned

theorem skipAfterWhole_append {fraction power rest : List Char} (hf : FractionText fraction)
    (hp : PowerText power) (hr : EndsNumber rest) :
    skipAfterWhole (fraction ++ (power ++ rest)) = .ok rest := by
  have hpower := hp.skip hr
  rcases hf with rfl | ⟨ds, hne, hds, rfl⟩
  · rw [List.nil_append]
    cases hrest : power ++ rest with
    | nil =>
      rw [hrest] at hpower
      exact hpower
    | cons c s =>
      rw [hrest] at hpower
      have hpoint : c ≠ '.' := by
        rcases hp with rfl | ⟨letter, sign, es, hletter, -, -, -, rfl⟩
        · exact (hr c s hrest).2.1
        · have hc : c = letter := (List.cons.inj hrest).1.symm
          rcases hletter with rfl | rfl <;> simp [hc]
      simpa [skipAfterWhole, hpoint] using hpower
  · have hdigits := skipDigits_append hne hds (hp.startsWithDigit hr)
    simp [skipAfterWhole, hdigits, hpower]

/-- A number is passed over from behind its sign. -/
theorem UnsignedText.skip {t rest : List Char} (h : UnsignedText t) (hr : EndsNumber rest) :
    skipUnsigned (t ++ rest) = .ok rest := by
  obtain ⟨whole, fraction, power, hwhole, hf, hp, rfl⟩ := h
  have hafter := skipAfterWhole_append hf hp hr
  have hstop := hf.startsWithDigit (hp.startsWithDigit hr)
  rcases hwhole with rfl | ⟨d, ds, hd, hzero, hds, rfl⟩
  · simpa [skipUnsigned, hstop] using hafter
  · simpa [skipUnsigned, hzero, hd, dropDigits_append hds hstop] using hafter

theorem UnsignedText.cons {t : List Char} (h : UnsignedText t) :
    ∃ d s, t = d :: s ∧ d.isDigit = true := by
  obtain ⟨whole, fraction, power, rfl | ⟨d, ds, hd, -, -, rfl⟩, -, -, rfl⟩ := h
  · exact ⟨'0', _, rfl, rfl⟩
  · exact ⟨d, _, rfl, hd⟩

/-! ## Quoted texts are passed over -/

namespace Reader

theorem read_skippedTextStep {piece : List Char} (h : RawChar piece) (s : List Char) :
    (skippedTextStep ()).read (piece ++ s) = some (.inl (), s) := by
  cases h with
  | plain hquote hbackslash hcontrol =>
    simp [skippedTextStep, read_follow, hquote, hbackslash, hcontrol]
  | @short c d h =>
    have hu : c ≠ 'u' := by
      rintro rfl
      cases h
    simp [skippedTextStep, read_follow, skippedEscape, hu, read_shortEscape s h]
  | hex h => simp [skippedTextStep, read_follow, skippedEscape, read_fourHex s h]

theorem read_skippedText {pieces : List (List Char)} (h : ∀ piece ∈ pieces, RawChar piece)
    (s : List Char) : skippedText.read (pieces.flatten ++ '"' :: s) = some ((), s) := by
  induction pieces with
  | nil =>
    rw [skippedText, read_iterate]
    simp [skippedTextStep, read_follow]
  | cons piece pieces ih =>
    rw [List.forall_mem_cons] at h
    rw [skippedText, read_iterate, List.flatten_cons, List.append_assoc,
      read_skippedTextStep h.1]
    exact ih h.2

/-! ## Values are passed over -/

/-- What skipping makes of the text behind a value inside the given open arrays and objects. -/
def resume (frames : List Frame) (rest : List Char) : Option (Unit × List Char) :=
  match settle frames with
  | .inr () => some ((), rest)
  | .inl place => (iterate skipStep place).read rest

/-- Passing over the text `t` at a place for a value. -/
def Skips (t : List Char) : Prop :=
  ∀ frames rest, EndsNumber rest →
    (iterate skipStep (.value frames)).read (t ++ rest) = resume frames rest

theorem passesBlanks_skipValue (frames : List Frame) : PassesBlanks (skipValue frames) := .peek _ _

/-- A value without parts is passed over in one step. -/
theorem skips_of_read {blanks t : List Char} (hb : Blank blanks)
    (h : ∀ frames rest, EndsNumber rest →
      (skipValue frames).read (t ++ rest) = some (settle frames, rest)) : Skips (blanks ++ t) := by
  intro frames rest hr
  have hread : (skipStep (.value frames)).read (blanks ++ (t ++ rest)) =
      some (settle frames, rest) :=
    (passesBlanks_skipValue frames hb _).trans (h frames rest hr)
  rw [read_iterate, List.append_assoc, hread, resume]
  cases settle frames <;> rfl

theorem skips_word {blanks word : List Char} (hb : Blank blanks) (h : word ∈ words) :
    Skips (blanks ++ word) := by
  apply skips_of_read hb
  intro frames rest _
  simp only [words, List.mem_cons, List.not_mem_nil, or_false] at h
  rcases h with rfl | rfl | rfl
  all_goals
    rw [skipValue, List.cons_append, read_peek_cons _ _ (by decide)]
    simp [nullWord, trueWord, falseWord, word, letter, read_next_cons, Except.toOption]

theorem read_skippedUnsigned {t rest : List Char} (h : UnsignedText t) (hr : EndsNumber rest) :
    skippedUnsigned.read (t ++ rest) = some ((), rest) := by
  simp [read, skippedUnsigned, h.skip hr, Except.map, Except.toOption]

theorem skips_positive {blanks t : List Char} (hb : Blank blanks) (h : UnsignedText t) :
    Skips (blanks ++ t) := by
  apply skips_of_read hb
  intro frames rest hr
  have hread := read_skippedUnsigned h hr
  obtain ⟨d, s, rfl, hd⟩ := h.cons
  have hne (c : Char) (hc : c.isDigit = false) : d ≠ c := by
    rintro rfl
    rw [hc] at hd
    cases hd
  rw [List.cons_append] at hread ⊢
  rw [skipValue, read_peek_cons _ _ (isBlank_of_isDigit hd)]
  simp [hne 'n' rfl, hne 't' rfl, hne 'f' rfl, hne '-' rfl, hd, hread]

theorem skips_negative {blanks t : List Char} (hb : Blank blanks) (h : UnsignedText t) :
    Skips (blanks ++ '-' :: t) := by
  apply skips_of_read hb
  intro frames rest hr
  rw [skipValue, List.cons_append, read_peek_cons _ _ (by decide)]
  simp [read_skippedUnsigned h hr]

theorem skips_text {blanks t : List Char} (hb : Blank blanks) (h : RawText t) :
    Skips (blanks ++ t) := by
  apply skips_of_read hb
  intro frames rest _
  obtain ⟨pieces, hpieces, rfl⟩ := h
  rw [skipValue, List.cons_append, List.append_assoc, read_peek_cons _ _ (by decide)]
  simp [read_skippedText hpieces]

/-! ## Arrays and objects are passed over -/

theorem read_close (frames : List Frame) (c : Char) (rest : List Char) :
    (close frames).read (c :: rest) = some (settle frames, rest) := by
  simp [close]

/-- A closing bracket ends an array or object behind any of its parts. -/
theorem read_step_close {place : Place} {frames : List Frame} {blanks rest : List Char} {c : Char}
    (h : (skipStep place).read (blanks ++ c :: rest) = (close frames).read (c :: rest)) :
    (iterate skipStep place).read (blanks ++ c :: rest) = resume frames rest := by
  rw [read_iterate, h, read_close, resume]
  cases settle frames <;> rfl

theorem read_further_array {parts : List (List Char)} {text : List Char}
    (h : Further ']' parts text) (hparts : ∀ part ∈ parts, Skips part) (frames : List Frame)
    (rest : List Char) :
    (iterate skipStep (.behind .array frames)).read (text ++ rest) = resume frames rest := by
  induction h with
  | @close blanks hb =>
    rw [List.append_assoc, List.singleton_append]
    apply read_step_close
    rw [skipStep, read_peek _ _ hb (by decide)]
    simp
  | @part blanks part text parts hb h ih =>
    rw [List.forall_mem_cons] at hparts
    have hnext : (skipStep (.behind .array frames)).read (blanks ++ ',' :: (part ++ (text ++ rest))) =
        some (.inl (.value (.array :: frames)), part ++ (text ++ rest)) := by
      rw [skipStep, read_peek _ _ hb (by decide)]
      simp
    simp only [List.append_assoc, List.cons_append]
    rw [read_iterate, hnext]
    exact (hparts.1 _ _ (h.endsNumber (.inl rfl) rest)).trans (ih hparts.2)

/-- A part of an array is not taken for its end. -/
def BeginsValue (t : List Char) : Prop :=
  ∃ blanks c s, Blank blanks ∧ isBlank c = false ∧ c ≠ ']' ∧ t = blanks ++ c :: s

theorem read_opened_array {parts : List (List Char)} {text : List Char} (h : Inside ']' parts text)
    (hparts : ∀ part ∈ parts, Skips part) (hbegins : ∀ part ∈ parts, BeginsValue part)
    (frames : List Frame) (rest : List Char) :
    (iterate skipStep (.opened .array frames)).read (text ++ rest) = resume frames rest := by
  cases h with
  | @empty blanks hb =>
    rw [List.append_assoc, List.singleton_append]
    apply read_step_close
    rw [skipStep, read_peek _ _ hb (by decide)]
    simp
  | @parts part text parts h =>
    rw [List.forall_mem_cons] at hparts hbegins
    obtain ⟨blanks, c, s, hb, hc, hne, hpart⟩ := hbegins.1
    -- The first part is read as a value that is not behind a comma.
    have hstep : (skipStep (.opened .array frames)).read (part ++ (text ++ rest)) =
        (skipStep (.value (.array :: frames))).read (part ++ (text ++ rest)) := by
      simp only [hpart, List.append_assoc, List.cons_append]
      rw [skipStep, skipStep, read_peek _ _ hb hc, if_neg hne, passesBlanks_skipValue _ hb]
    rw [List.append_assoc, read_iterate, hstep, ← read_iterate,
      hparts.1 _ _ (h.endsNumber (.inl rfl) rest)]
    exact read_further_array h hparts.2 frames rest

theorem read_skippedKey {m : Member} (hm : m.Spaced) (hkey : RawText m.key) (s : List Char) :
    skippedKey.read (m.text ++ s) = some ((), m.value ++ s) := by
  obtain ⟨pieces, hpieces, hkey⟩ := hkey
  simp only [Member.text, hkey, List.append_assoc, List.cons_append, List.nil_append]
  rw [skippedKey, read_peek _ _ hm.before (by decide), if_pos rfl, read_andThen, read_anyChar]
  simp only [Option.bind_some, read_andThen, read_skippedText hpieces, colon]
  rw [read_symbol _ hm.between (by decide)]

theorem read_further_object {members : List Member} {text : List Char}
    (h : Further '\x7d' (members.map Member.text) text) (hspaced : ∀ m ∈ members, m.Spaced)
    (hkeys : ∀ m ∈ members, RawText m.key) (hvalues : ∀ m ∈ members, Skips m.value)
    (frames : List Frame) (rest : List Char) :
    (iterate skipStep (.behind .object frames)).read (text ++ rest) = resume frames rest := by
  induction members generalizing text with
  | nil =>
    cases h with
    | @close blanks hb =>
    rw [List.append_assoc, List.singleton_append]
    apply read_step_close
    rw [skipStep, read_peek _ _ hb (by decide)]
    simp
  | cons m members ih =>
    rw [List.forall_mem_cons] at hspaced hkeys hvalues
    cases h with
    | @part blanks _ text _ hb h =>
    have hnext : (skipStep (.behind .object frames)).read
        (blanks ++ ',' :: (m.text ++ (text ++ rest))) =
        some (.inl (.value (.object :: frames)), m.value ++ (text ++ rest)) := by
      rw [skipStep, read_peek _ _ hb (by decide)]
      simp [read_skippedKey hspaced.1 hkeys.1]
    simp only [List.append_assoc, List.cons_append]
    rw [read_iterate, hnext]
    exact (hvalues.1 _ _ (h.endsNumber (.inr rfl) rest)).trans (ih h hspaced.2 hkeys.2 hvalues.2)

theorem read_opened_object {members : List Member} {text : List Char}
    (h : Inside '\x7d' (members.map Member.text) text) (hspaced : ∀ m ∈ members, m.Spaced)
    (hkeys : ∀ m ∈ members, RawText m.key) (hvalues : ∀ m ∈ members, Skips m.value)
    (frames : List Frame) (rest : List Char) :
    (iterate skipStep (.opened .object frames)).read (text ++ rest) = resume frames rest := by
  cases members with
  | nil =>
    cases h with
    | @empty blanks hb =>
    rw [List.append_assoc, List.singleton_append]
    apply read_step_close
    rw [skipStep, read_peek _ _ hb (by decide)]
    simp
  | cons m members =>
    rw [List.forall_mem_cons] at hspaced hkeys hvalues
    cases h with
    | @parts _ text _ h =>
    have hkey := read_skippedKey hspaced.1 hkeys.1 (text ++ rest)
    obtain ⟨q, hq⟩ : ∃ q, m.text ++ (text ++ rest) = m.before ++ '"' :: q := by
      obtain ⟨pieces, -, hpieces⟩ := hkeys.1
      exact ⟨_, by rw [Member.text, hpieces, List.append_assoc]; rfl⟩
    have hnext : (skipStep (.opened .object frames)).read (m.text ++ (text ++ rest)) =
        some (.inl (.value (.object :: frames)), m.value ++ (text ++ rest)) := by
      have hpass : PassesBlanks skippedKey := .peek _ _
      rw [hq, hpass hspaced.1.before] at hkey
      rw [hq, skipStep, read_peek _ _ hspaced.1.before (by decide), if_neg (by decide), read_map,
        hkey]
      rfl
    rw [List.append_assoc, read_iterate, hnext]
    exact (hvalues.1 _ _ (h.endsNumber (.inr rfl) rest)).trans
      (read_further_object h hspaced.2 hkeys.2 hvalues.2 frames rest)

end Reader

open Reader

/-- The text of a value does not begin like the end of an array. -/
theorem WellFormed.begins {t : List Char} (h : WellFormed t) : BeginsValue t := by
  cases h with
  | word hb h =>
    simp only [words, List.mem_cons, List.not_mem_nil, or_false] at h
    rcases h with rfl | rfl | rfl <;> exact ⟨_, _, _, hb, by decide, by decide, rfl⟩
  | positive hb h =>
    obtain ⟨d, s, rfl, hd⟩ := h.cons
    have hne : d ≠ ']' := by
      rintro rfl
      cases hd
    exact ⟨_, d, s, hb, isBlank_of_isDigit hd, hne, rfl⟩
  | negative hb h => exact ⟨_, '-', _, hb, by decide, by decide, rfl⟩
  | text hb h =>
    obtain ⟨pieces, -, rfl⟩ := h
    exact ⟨_, '"', _, hb, by decide, by decide, rfl⟩
  | array hb _ _ => exact ⟨_, '[', _, hb, by decide, by decide, rfl⟩
  | object hb _ _ _ _ => exact ⟨_, '\x7b', _, hb, by decide, by decide, rfl⟩

/-- Whatever the grammar derives is passed over, inside whatever is open. -/
theorem WellFormed.skips {t : List Char} (h : WellFormed t) : Skips t := by
  induction h with
  | word hb h => exact skips_word hb h
  | positive hb h => exact skips_positive hb h
  | negative hb h => exact skips_negative hb h
  | text hb h => exact skips_text hb h
  | @array blanks inside parts hb hparts h ih =>
    intro frames rest hr
    have hopen : (skipStep (.value frames)).read (blanks ++ '[' :: (inside ++ rest)) =
        some (.inl (.opened .array frames), inside ++ rest) := by
      rw [skipStep, skipValue, read_peek _ _ hb (by decide)]
      simp
    rw [List.append_assoc, List.cons_append, read_iterate, hopen]
    exact read_opened_array h ih (fun part hpart => (hparts part hpart).begins) frames rest
  | @object blanks inside members hb hspaced hkeys hvalues h ih =>
    intro frames rest hr
    have hopen : (skipStep (.value frames)).read (blanks ++ '\x7b' :: (inside ++ rest)) =
        some (.inl (.opened .object frames), inside ++ rest) := by
      rw [skipStep, skipValue, read_peek _ _ hb (by decide)]
      simp
    rw [List.append_assoc, List.cons_append, read_iterate, hopen]
    exact read_opened_object h hspaced hkeys ih frames rest

/-- A value that nobody asked for is passed over. -/
theorem WellFormed.yields {t : List Char} (h : WellFormed t) : skip.Yields t (some ()) :=
  fun rest hr => h.skips [] rest hr

end SyntaxForest.Document
