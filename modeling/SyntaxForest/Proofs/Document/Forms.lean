import SyntaxForest.Document.Encode
import SyntaxForest.Proofs.Document.Numbers
import SyntaxForest.Proofs.Document.Written

/-!
# Every form reads back what it writes

A form of values is *faithful* to a document value when reading the text of the one gives the other.
Numbers that need not be whole make this conditional: some do not come back from their own text, and
those that are not finite have no text at all. `Faithful` therefore says two things at once, for a
bound on the brackets that may be open: the value comes back if every number in it does, and nothing
comes back unless the brackets are within the bound and every number is finite.

There is one lemma for each form, and a shape inherits it through the table of forms.
-/

namespace SyntaxForest.Document

open Numeric

/-- A number comes back from its own text, bit for bit. -/
def Recovers (x : Double) : Prop :=
  decode .scalar (documentLayout.text x) = .ok (.float x)

theorem recovers_iff {x : Double} :
    Recovers x ↔ (decode .scalar (documentLayout.text x)).toOption = some (.float x) := by
  rw [Recovers]
  cases decode .scalar (documentLayout.text x) <;> simp [Except.toOption]

instance (x : Double) : Decidable (Recovers x) := decidable_of_iff _ recovers_iff.symm

/-- Numbers that have a text in documents. -/
def Finite (x : Double) : Prop := x.isFinite = true

/-- The outcome of reading `v` back: it is `v` if `clean` holds, and there is one only if `sane`
does. -/
structure Verdict {α : Type} (outcome : Option α) (v : α) (clean sane : Prop) : Prop where
  eq_some : clean → outcome = some v
  sane_of_ne : outcome ≠ none → sane

/-- Reading the text of `j` gives `v` if all numbers in `j` come back, and gives something only if
`j` is not nested deeper than the bound and all numbers in it are finite. -/
def Faithful {α : Type} (p : Reader α) (bound : Nat) (v : α) (j : Json) : Prop :=
  ∀ sp, ∃ outcome, p.Yields (j.chars sp) outcome ∧
    Verdict outcome v (j.Within Recovers bound) (j.Within Finite bound)

/-- Values of a shape are read back from `j`, whatever the bound. -/
def Reads (s : Shape) (v : s.Carrier) (j : Json) : Prop :=
  ∀ bound, Faithful (decoder bound s) bound v j

/-- The decoder for what stands inside brackets, if any may be opened. -/
def innerDecoder : Nat → Option Decoder
  | 0 => none
  | bound + 1 => some (decoder bound)

theorem decoder_eq (bound : Nat) (s : Shape) :
    decoder bound s = s.form.reader (innerDecoder bound) := by
  cases bound <;> rfl

variable {α β γ σ : Type}

namespace Verdict

variable {outcome : Option α} {v : α} {clean sane : Prop}

theorem map (h : Verdict outcome v clean sane) (f : α → β) :
    Verdict (outcome.map f) (f v) clean sane where
  eq_some hclean := by rw [h.eq_some hclean, Option.map_some]
  sane_of_ne hne := h.sane_of_ne fun hnone => hne (by rw [hnone, Option.map_none])

theorem eq_none (h : Verdict outcome v clean sane) (hsane : ¬sane) : outcome = none := by
  cases outcome with
  | none => rfl
  | some a => exact absurd (h.sane_of_ne (by simp)) hsane

/-- One value after another. -/
theorem pair {outcome' : Option β} {v' : β} {clean' sane' : Prop}
    (h : Verdict outcome v clean sane) (h' : Verdict outcome' v' clean' sane') (f : α → β → γ) :
    Verdict (outcome.bind fun a => outcome'.map (f a)) (f v v') (clean ∧ clean')
      (sane ∧ sane') where
  eq_some hclean := by rw [h.eq_some hclean.1, h'.eq_some hclean.2]; rfl
  sane_of_ne hne := by
    cases outcome with
    | none => exact absurd rfl hne
    | some a =>
      refine ⟨h.sane_of_ne (by simp), h'.sane_of_ne fun hnone => hne ?_⟩
      rw [hnone]
      rfl

theorem congr {clean' sane' : Prop} (h : Verdict outcome v clean sane) (hclean : clean ↔ clean')
    (hsane : sane ↔ sane') : Verdict outcome v clean' sane' :=
  ⟨fun hc => h.eq_some (hclean.mpr hc), fun hne => hsane.mp (h.sane_of_ne hne)⟩

end Verdict

theorem Faithful.map {p : Reader α} {bound : Nat} {v : α} {j : Json}
    (h : Faithful p bound v j) (f : α → β) : Faithful (p.map f) bound (f v) j := by
  intro sp
  obtain ⟨outcome, hy, hv⟩ := h sp
  exact ⟨outcome.map f, hy.map f, hv.map f⟩

/-- A value without numbers and brackets is faithful as soon as it is read back. -/
theorem Faithful.of_yields {p : Reader α} {v : α} {j : Json} (hdepth : j.depth = 0)
    (hfloats : j.floats = []) (h : ∀ sp, p.Yields (j.chars sp) (some v)) (bound : Nat) :
    Faithful p bound v j := by
  intro sp
  exact ⟨some v, h sp, fun _ => rfl, fun _ => ⟨by omega, by simp [hfloats]⟩⟩

/-! ## Texts, units and names -/

namespace Reader

theorem quotedText_yields {t : String} {q : List Char} (h : QuotedText t q) :
    quotedText.Yields q (some t) := by
  obtain ⟨r, rfl, hread⟩ := read_text_of_quoted h
  intro rest _
  rw [quotedText, List.cons_append, read_peek_cons _ _ (by decide)]
  simp [hread]

theorem read_nullWord (s : List Char) :
    nullWord.read ('n' :: 'u' :: 'l' :: 'l' :: s) = some ((), s) := by
  simp [nullWord, word, letter, read_next_cons, Except.toOption]

theorem unit_yields (expected : Expected) :
    (unit expected).Yields ['n', 'u', 'l', 'l'] (some ()) := by
  intro rest _
  rw [unit, List.cons_append, read_peek_cons _ _ (by decide)]
  simp [read_nullWord]

theorem variant_yields_name {table : List (Variant α)} {tag : String} {value : α}
    (hfind : findVariant table tag = .ok (.unit tag value)) {q : List Char} (h : QuotedText tag q)
    (inner : Option Decoder) : (variant inner table).Yields q (some value) := by
  obtain ⟨r, rfl, hread⟩ := read_text_of_quoted h
  intro rest _
  rw [variant, List.cons_append, read_peek_cons _ _ (by decide)]
  simp [bareVariant, read_follow, hread, hfind]

end Reader

theorem faithful_text (bound : Nat) (t : String) :
    Faithful Reader.quotedText bound t (.text t) :=
  .of_yields rfl rfl (fun _ => Reader.quotedText_yields (quotedText_quotedTail t)) bound

theorem faithful_unit (expected : Expected) (bound : Nat) :
    Faithful (Reader.unit expected) bound () .null :=
  .of_yields rfl rfl (fun _ => Reader.unit_yields expected) bound

theorem faithful_name {table : List (Variant α)} {tag : String} {value : α}
    (h : Reader.findVariant table tag = .ok (.unit tag value)) (inner : Option Decoder)
    (bound : Nat) : Faithful (Reader.variant inner table) bound value (.text tag) :=
  .of_yields rfl rfl (fun _ => Reader.variant_yields_name h (quotedText_quotedTail tag) inner) bound

/-! ## Numbers -/

theorem Reader.read_anyValue_number {inner : Option Decoder} {c : Char} {s : List Char}
    (h : c = '-' ∨ c.isDigit = true) :
    (anyValue inner).read (c :: s) =
      (number.read (c :: s)).map fun (n, rest) => (some n.toScalar, rest) := by
  have hblank : isBlank c = false := by
    rcases h with rfl | h
    · rfl
    · exact isBlank_of_isDigit h
  have hletters : c ≠ 'n' ∧ c ≠ 't' ∧ c ≠ 'f' := by
    refine ⟨?_, ?_, ?_⟩ <;> (rintro rfl; revert h; decide)
  rw [anyValue, read_peek_cons _ _ hblank, if_neg hletters.1, if_neg hletters.2.1,
    if_neg hletters.2.2, if_pos (by simpa using h), read_map]

theorem Reader.scalar_yields (inner : Option Decoder) {t : List Char} {outcome : Option Numeral}
    (hhead : ∃ c s, t = c :: s ∧ (c = '-' ∨ c.isDigit = true)) (h : number.Yields t outcome) :
    (Form.reader inner (.scalar id)).Yields t (outcome.map Numeral.toScalar) := by
  obtain ⟨c, s, rfl, hc⟩ := hhead
  intro rest hr
  rw [Form.reader, read_follow, List.cons_append, read_anyValue_number hc, ← List.cons_append,
    h rest hr]
  cases outcome <;> rfl

theorem Reader.scalar_yields_null (inner : Option Decoder) :
    (Form.reader inner (.scalar id)).Yields ['n', 'u', 'l', 'l'] none := by
  intro rest _
  rw [Form.reader, read_follow, anyValue, List.cons_append, read_peek_cons _ _ (by decide)]
  simp [read_nullWord]

/-- A document that holds one value and nothing but blanks behind it is read as the value is. -/
theorem decodeChars_toOption {s : Shape} {document blanks : List Char} {outcome : Option s.Carrier}
    (h : (decoder maxDepth s).Yields document outcome) (hb : Blank blanks) :
    (decodeChars s (document ++ blanks)).toOption = outcome := by
  have hread := h blanks (.of_blank hb)
  rw [Reader.read] at hread
  rw [decodeChars]
  cases hrun : (decoder maxDepth s).run (document ++ blanks) with
  | error e =>
    rw [hrun] at hread
    cases outcome <;> simp_all [Except.toOption]
  | ok result =>
    rw [hrun] at hread
    cases outcome with
    | none => simp [Except.toOption] at hread
    | some v =>
      have hrest : skipBlanks blanks = [] := by simpa using skipBlanks_append hb []
      simp only [Except.toOption, Option.map_some, Option.some.injEq] at hread
      subst hread
      simp [Except.toOption, hrest]

/-- A document that holds one value and nothing else is read as the value is. -/
theorem decode_toOption {s : Shape} {document : String} {outcome : Option s.Carrier}
    (h : (decoder maxDepth s).Yields document.toList outcome) :
    (decode s document).toOption = outcome := by
  rw [decode, ← List.append_nil document.toList]
  exact decodeChars_toOption h Blank.nil

theorem documentLayout_text_of_not_isFinite {x : Double} (hx : x.isFinite = false) :
    documentLayout.text x = "null" := by
  simp [Layout.text, hx, documentLayout]

theorem documentLayout_text_cons {x : Double} (hx : x.isFinite = true) :
    ∃ c s, (documentLayout.text x).toList = c :: s ∧ (c = '-' ∨ c.isDigit = true) := by
  obtain ⟨t, ht, htext | htext⟩ := numberText_documentLayout hx
  · obtain ⟨c, s, rfl, hc⟩ := ht.cons
    exact ⟨c, s, htext, .inr hc⟩
  · exact ⟨'-', t, htext, .inl rfl⟩

/-- Payloads: a whole number is always read back, and what is not finite never is. -/
theorem faithful_scalar (inner : Option Decoder) (bound : Nat) (v : Scalar) :
    Faithful (Form.reader inner (.scalar id)) bound v v.toJson := by
  cases v with
  | int n =>
    refine .of_yields rfl rfl ?_ bound
    intro sp
    have hhigh : n.toInt < signedBound := n.toInt_lt
    have hyields := Reader.scalar_yields inner (intText_cons n.toInt)
      (Reader.number_yields_intText n.le_toInt hhigh)
    have hscalar : (Numeral.int n.toInt).toScalar = .int n := by
      simp [Numeral.toScalar, hhigh]
    rw [Option.map_some, hscalar] at hyields
    exact hyields
  | float x =>
    intro sp
    cases hx : x.isFinite with
    | true =>
      obtain ⟨outcome, hnumber⟩ := Reader.number_yields_documentLayout hx
      have hyields (inner : Option Decoder) :=
        Reader.scalar_yields inner (documentLayout_text_cons hx) hnumber
      refine ⟨_, hyields inner, ?_, ?_⟩
      · -- As a document of its own the number has the same text, with nothing behind it.
        rintro ⟨-, hrec⟩
        have hdecode := decode_toOption (decoder_eq maxDepth .scalar ▸ hyields _)
        rw [hrec x (by simp [Scalar.toJson, Json.floats])] at hdecode
        exact hdecode.symm
      · intro _
        refine ⟨Nat.zero_le _, ?_⟩
        simpa [Scalar.toJson, Json.floats, Finite] using hx
    | false =>
      -- What is written is null, and null is no payload.
      have hyields (inner : Option Decoder) :
          (Form.reader inner (.scalar id)).Yields ((Json.float x).chars sp) none := by
        rw [Json.chars, documentLayout_text_of_not_isFinite hx]
        exact Reader.scalar_yields_null inner
      refine ⟨none, hyields inner, ?_, fun h => absurd rfl h⟩
      rintro ⟨-, hrec⟩
      have hdecode : (decode .scalar (documentLayout.text x)).toOption = none :=
        decode_toOption (decoder_eq maxDepth .scalar ▸ hyields _)
      rw [hrec x (by simp [Scalar.toJson, Json.floats])] at hdecode
      cases hdecode

/-! ## Brackets -/

theorem endsNumber_comma (s : List Char) : EndsNumber (',' :: s) :=
  .cons (by decide) (by decide) (by decide) (by decide)

theorem endsNumber_bracket (s : List Char) : EndsNumber (']' :: s) :=
  .cons (by decide) (by decide) (by decide) (by decide)

theorem endsNumber_brace (s : List Char) : EndsNumber ('\x7d' :: s) :=
  .cons (by decide) (by decide) (by decide) (by decide)

theorem endsNumber_items (sp : Spacing) (items : List Json) (close : Spacing) (rest : List Char) :
    EndsNumber (Json.itemsChars sp items ++ (close.gap ++ ']' :: rest)) := by
  cases items with
  | nil => exact close.endsNumber_gap (endsNumber_bracket rest)
  | cons _ _ => exact endsNumber_comma _

theorem endsNumber_members (sp : Spacing) (members : List (String × Json)) (close : Spacing)
    (rest : List Char) :
    EndsNumber (Json.membersChars sp members ++ (close.gap ++ '\x7d' :: rest)) := by
  cases members with
  | nil => exact close.endsNumber_gap (endsNumber_brace rest)
  | cons _ _ => exact endsNumber_comma _

/-- Reading on from behind the opening bracket of `j` gives `v`, in the sense of `Faithful`, with
one level less for what is inside. -/
def FaithfulInside (inside : Decoder → Reader α) (v : α) (j : Json) : Prop :=
  ∀ bound sp, ∃ outcome,
    (∀ rest, (inside (decoder bound)).read ((j.chars sp).tail ++ rest) = outcome.map (·, rest)) ∧
    Verdict outcome v (j.Within Recovers (bound + 1)) (j.Within Finite (bound + 1))

/-- A reader that enters a bracket is faithful if what it reads inside is. Without a level left no
bracket is opened, and none may be. -/
theorem FaithfulInside.enter {inside : Decoder → Reader α} {p : Reader α} {bound : Nat} {v : α}
    {j : Json} {c : Char} (h : FaithfulInside inside v j) (hdepth : 0 < j.depth)
    (hchars : ∀ sp, ∃ t, j.chars sp = c :: t)
    (hopen : ∀ s, p.read (c :: s) = (Reader.enter (innerDecoder bound) inside).read (c :: s)) :
    Faithful p bound v j := by
  intro sp
  obtain ⟨t, ht⟩ := hchars sp
  cases bound with
  | zero =>
    -- No level is left: nothing is read, and the bracket of `j` itself is one too many.
    refine ⟨none, ?_, ?_, fun hne => absurd rfl hne⟩
    · intro rest _
      rw [ht, List.cons_append, hopen]
      rfl
    · rintro ⟨hle, -⟩
      omega
  | succ bound =>
    obtain ⟨outcome, hread, hverdict⟩ := h bound sp
    refine ⟨outcome, ?_, hverdict⟩
    intro rest _
    rw [ht, List.tail_cons] at hread
    rw [ht, List.cons_append, hopen, ← hread rest]
    simp [Reader.enter, innerDecoder]

/-- Elements that are objects, so that none of them is mistaken for the end of its list. -/
def Json.IsObject (j : Json) : Prop := ∃ members, j = .object members

theorem Json.IsObject.chars {j : Json} (h : j.IsObject) (sp : Spacing) :
    ∃ t, j.chars sp = '\x7b' :: t := by
  obtain ⟨members, rfl⟩ := h
  exact chars_object sp members

/-! ## Lists -/

namespace Reader

variable (item : Reader α) {blanks blanks' : List Char}

theorem read_listStep_close (hb : Blank blanks) (before : List α) (rest : List Char) :
    (iterate (listStep item) before).read (blanks ++ ']' :: rest) =
      some (before.reverse, rest) := by
  rw [read_iterate, listStep, read_peek _ _ hb (by decide)]
  simp

/-- An element behind a comma is read, and then the further ones. -/
theorem read_listStep_comma (hb : Blank blanks) (hb' : Blank blanks') {c : Char}
    (hc : isBlank c = false) (hne : c ≠ ']') (before : List α) (s : List Char) :
    (iterate (listStep item) before).read (blanks ++ ',' :: (blanks' ++ c :: s)) =
      (item.bind fun a => iterate (listStep item) (a :: before)).read (c :: s) := by
  rw [read_iterate, listStep, read_peek _ _ hb (by decide)]
  simp only [Char.reduceEq, if_true, if_false, read_andThen, read_anyChar, Option.bind_some]
  rw [read_peek _ _ hb' hc]
  simp only [hne, if_false, read_map, read_bind]
  cases item.read (c :: s) <;> rfl

/-- The first element reads as if a comma stood before it. -/
theorem read_items_open (hb : Blank blanks) {c : Char} (hc : isBlank c = false) (hne : c ≠ ']')
    (s : List Char) :
    (items item).read (blanks ++ c :: s) =
      (iterate (listStep item) []).read (',' :: (blanks ++ c :: s)) := by
  have hcomma := read_listStep_comma item Blank.nil hb hc hne [] s
  rw [List.nil_append] at hcomma
  rw [hcomma, items, read_peek _ _ hb hc]
  simp [hne]

end Reader

section

variable {item : Reader α} {bound : Nat} {toJson : α → Json}

/-- The further elements of a list. What comes of them does not depend on the elements before. -/
theorem listSteps_faithful {vs : List α} (hobject : ∀ v ∈ vs, (toJson v).IsObject)
    (h : ∀ v ∈ vs, Faithful item bound v (toJson v)) (sp : Spacing) :
    ∃ outcome : Option (List α),
      (∀ before (close : Spacing) rest,
        (Reader.iterate (Reader.listStep item) before).read
          (Json.itemsChars sp (vs.map toJson) ++ (close.gap ++ ']' :: rest)) =
        outcome.map fun vs => (before.reverse ++ vs, rest)) ∧
      Verdict outcome vs (∀ v ∈ vs, (toJson v).Within Recovers bound)
        (∀ v ∈ vs, (toJson v).Within Finite bound) := by
  induction vs with
  | nil =>
    refine ⟨some [], ?_, fun _ => rfl, by simp⟩
    intro before close rest
    simpa [Json.itemsChars] using Reader.read_listStep_close item close.blank_gap before rest
  | cons v vs ih =>
    rw [List.forall_mem_cons] at hobject h
    obtain ⟨outcome, hread, hverdict⟩ := ih hobject.2 h.2
    obtain ⟨first, hfirst, hverdict₁⟩ := h.1 sp
    obtain ⟨t, ht⟩ := hobject.1.chars sp
    refine ⟨first.bind fun a => outcome.map (a :: ·), ?_,
      (hverdict₁.pair hverdict List.cons).congr (by simp) (by simp)⟩
    -- The loop carries the elements it has read, so the later ones are read behind `a :: before`.
    intro before close rest
    have hitem := hfirst _ (endsNumber_items sp (vs.map toJson) close rest)
    simp only [List.map_cons, Json.itemsChars, List.cons_append, List.append_assoc]
    rw [ht, List.cons_append] at hitem ⊢
    rw [← List.nil_append (',' :: _), Reader.read_listStep_comma item Blank.nil sp.blank_gap rfl
      (by decide), Reader.read_bind, hitem]
    cases first with
    | none => rfl
    | some a =>
      simp only [Option.map_some, Option.bind_some, hread (a :: before) close rest]
      cases outcome <;> simp

theorem faithfulInside_items {item : Shape} {toJson : item.Carrier → Json}
    {vs : List item.Carrier} (hobject : ∀ v ∈ vs, (toJson v).IsObject)
    (h : ∀ v ∈ vs, Reads item v (toJson v)) :
    FaithfulInside (fun decoder => Reader.items (decoder item)) vs (.array (vs.map toJson)) := by
  intro bound sp
  cases vs with
  | nil =>
    refine ⟨some [], ?_, fun _ => rfl, fun _ => ?_⟩
    · intro rest
      show (Reader.items (decoder bound item)).read (']' :: rest) = _
      rw [Reader.items, Reader.read_peek_cons _ _ (by decide)]
      simp
    · simp [Json.within_array]
  | cons v vs =>
    obtain ⟨outcome, hread, hverdict⟩ :=
      listSteps_faithful hobject (fun v hv => h v hv bound) sp.deeper
    obtain ⟨t, ht⟩ := (hobject v List.mem_cons_self).chars sp.deeper
    refine ⟨outcome, ?_, hverdict.congr (by simp [Json.within_array])
      (by simp [Json.within_array])⟩
    intro rest
    have hsteps := hread [] sp rest
    simp only [List.map_cons, Json.itemsChars, Json.chars, List.tail_cons, List.cons_append,
      List.append_assoc, List.nil_append, List.reverse_nil] at hsteps ⊢
    rw [ht, List.cons_append] at hsteps ⊢
    rw [Reader.read_items_open _ sp.deeper.blank_gap rfl (by decide), hsteps]

/-- Lists. -/
theorem reads_list {item : Shape} {toJson : item.Carrier → Json} {vs : List item.Carrier}
    (hobject : ∀ v ∈ vs, (toJson v).IsObject) (h : ∀ v ∈ vs, Reads item v (toJson v)) :
    Reads (.list item) vs (.array (vs.map toJson)) := by
  intro bound
  rw [decoder_eq]
  refine Faithful.map ((faithfulInside_items hobject h).enter (by simp [Json.depth])
    (fun sp => Json.chars_array sp _) ?_) id
  intro s
  rw [Reader.list, Reader.read_peek_cons _ _ (by decide), if_pos rfl]

end

end SyntaxForest.Document
