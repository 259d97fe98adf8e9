import SyntaxForest.Proofs.Document.ForestLayouts
import SyntaxForest.Proofs.Document.Integers

/-!
# Documents of one constant

A document whose only tree is a constant may be laid out in many ways, and the number in it may be
any text: what is read from the document is what is read from the number
(`ConstantDocument.decode_eq`). With an integer for the number, this decides which constants of a
kind without fractions are accepted, and as what (`Forest.parse_integer`).
-/

namespace SyntaxForest.Document

open Numeric Reader

/-! ## Layouts with a number in them -/

/-- The texts of a constant whose payload is written as the given number: an object with its two
members in any order and others among them, or an array of the two. -/
inductive ConstantText (kind : Primitive) (number : List Char) : List Char → Prop
  | object {members : List (String × Member)} {blanks inside : List Char} (hb : Blank blanks)
      (hspaced : ∀ m ∈ members, m.2.Spaced) (hkeys : ∀ m ∈ members, QuotedText m.1 m.2.key)
      (hhas : "kind" ∈ members.map Prod.fst ∧ "value" ∈ members.map Prod.fst)
      (honce : members.Pairwise fun m m' => m.1 = m'.1 → m.1 ∉ ["kind", "value"])
      (hkind : ∀ m ∈ members, m.1 = "kind" → Spells .primitive kind m.2.value)
      (hvalue : ∀ m ∈ members, m.1 = "value" → ∃ gap, Blank gap ∧ m.2.value = gap ++ number)
      (hothers : ∀ m ∈ members, m.1 ∉ ["kind", "value"] → WellFormed m.2.value)
      (h : Inside '\x7d' (members.map fun m => m.2.text) inside) :
      ConstantText kind number (blanks ++ '\x7b' :: inside)
  | array {first gap blanks inside : List Char} (hb : Blank blanks)
      (hkind : Spells .primitive kind first) (hgap : Blank gap)
      (h : Inside ']' [first, gap ++ number] inside) :
      ConstantText kind number (blanks ++ '[' :: inside)

/-- The texts of a variant, from the texts of its payload. -/
def TaggedText (tag : String) (payload : List Char → Prop) (t : List Char) : Prop :=
  ∃ (m : Member) (blanks inside : List Char), Blank blanks ∧ m.Spaced ∧ QuotedText tag m.key ∧
    payload m.value ∧ Inside '\x7d' [m.text] inside ∧ t = blanks ++ '\x7b' :: inside

/-- The document holds one tree, a constant of the kind whose payload is written as the number. -/
def ConstantDocument (kind : Primitive) (number : List Char) (document : String) : Prop :=
  ∃ tree blanks inside trailing : List Char,
    TaggedText "Expression" (TaggedText "Constant" (ConstantText kind number)) tree ∧
    Blank blanks ∧ Inside ']' [tree] inside ∧ Blank trailing ∧
    document.toList = blanks ++ '[' :: inside ++ trailing

/-! ## Parts that are not read -/

/-- A member of a field whose value is not read is not read, whether the field is there or not. -/
theorem fieldMember_yields_none {fields : List Field} (hnames : (fields.map Field.name).Nodup)
    {field : Field} (hfield : field ∈ fields) {decoder : Decoder} {blanks t : List Char}
    (hb : Blank blanks) (h : (field.reader decoder).Yields t none) (slots : Slots fields) :
    (fieldMember decoder fields slots field.name).Yields (blanks ++ ':' :: t) none := by
  induction fields with
  | nil => cases hfield
  | cons first fields ih =>
    obtain ⟨slot, slots⟩ := slots
    obtain ⟨hnew, hnames⟩ := List.nodup_cons.mp hnames
    rcases List.mem_cons.mp hfield with rfl | hfield
    · cases slot with
      | some value =>
        rw [fieldMember_again]
        exact .fail _
      | none =>
        rw [fieldMember_self]
        have hvalue : (colon.andThen (field.reader decoder)).Yields (blanks ++ ':' :: t) none := by
          intro rest hr
          rw [List.append_assoc, List.cons_append, read_colon hb]
          exact h rest hr
        exact hvalue.map _
    · have hne : field.name ≠ first.name := by
        intro heq
        exact hnew (heq ▸ List.mem_map_of_mem hfield)
      rw [fieldMember_ne hne]
      exact (ih hnames hfield slots).map _

section

variable {s : Shape} {blanks inside : List Char} {bound : Nat}

/-- A record is not read if one of its fields is not, whatever stands behind it. -/
theorem object_yields_none {name : String} {fields : List Field} {make : Values fields → s.Carrier}
    {values : Values fields} {before after : List (String × Member)} {m : String × Member}
    {field : Field} (hform : s.form = .record name fields make) (hb : Blank blanks)
    (hspaced : ∀ m' ∈ before ++ m :: after, m'.2.Spaced)
    (hkeys : ∀ m' ∈ before ++ m :: after, QuotedText m'.1 m'.2.key)
    (honce : before.Pairwise fun m m' => m.1 = m'.1 → m.1 ∉ fields.map Field.name)
    (hfields : ∀ m' ∈ before, Values.Forall (fun field value => field.name = m'.1 →
      (field.reader (decoder bound)).Yields m'.2.value (some value)) fields values)
    (hothers : ∀ m' ∈ before, m'.1 ∉ fields.map Field.name → WellFormed m'.2.value)
    (hfield : field ∈ fields) (hname : m.1 = field.name)
    (hnone : (field.reader (decoder bound)).Yields m.2.value none)
    (h : Inside '\x7d' ((before ++ m :: after).map fun m => m.2.text) inside) :
    (decoder (bound + 1) s).Yields (blanks ++ '\x7b' :: inside) none := by
  have hnames := nodup_fieldNames hform
  have htakes := takes_fieldMembers hnames (fun m' hm' => hspaced m' (by simp [hm'])) honce hfields
    hothers [] (by simp)
  rw [Slots.filled_nil] at htakes
  have hmember (slots : Slots fields) := hname ▸ fieldMember_yields_none hnames hfield
    (hspaced m (by simp)).between hnone slots
  intro rest _
  rw [decoder_eq, hform, Form.reader, record, List.append_assoc, List.cons_append,
    read_peek _ _ hb (by decide), if_pos rfl, innerDecoder, read_enter, recordObject, read_follow,
    read_members_none htakes (hmember _) hspaced hkeys h]
  rfl

/-- A list of one item is read as the item is. -/
theorem singleton_yields {item : Shape} {make : List item.Carrier → s.Carrier} {part : List Char}
    {outcome : Option item.Carrier} (hform : s.form = .list item make) (hb : Blank blanks)
    (hbegins : BeginsValue part) (hpart : (decoder bound item).Yields part outcome)
    (h : Inside ']' [part] inside) :
    (decoder (bound + 1) s).Yields (blanks ++ '[' :: inside) (outcome.map fun v => make [v]) := by
  cases outcome with
  | some v =>
    have hparts : ∀ p ∈ [(v, part)], (decoder bound item).Yields p.2 (some p.1) :=
      List.forall_mem_singleton.mpr hpart
    exact list_yields hform hb (List.forall_mem_singleton.mpr hbegins) hparts h
  | none =>
    cases h with
    | @parts _ text _ h =>
    intro rest _
    have hread := hpart (text ++ rest) (h.endsNumber (.inl rfl) rest)
    obtain ⟨blanks', c, t, hb', hc, hne, rfl⟩ := hbegins
    rw [decoder_eq, hform, Form.reader, read_map, Reader.list, List.append_assoc, List.cons_append,
      read_peek _ _ hb (by decide), if_pos rfl, innerDecoder, read_enter]
    simp only [List.append_assoc, List.cons_append] at hread ⊢
    rw [PassesBlanks.decoder bound item hb'] at hread
    rw [read_items_open _ hb' hc hne, ← List.nil_append (',' :: _),
      read_listStep_comma _ Blank.nil hb' hc hne, read_bind, hread]
    rfl

end

/-! ## What is read from the document -/

section

variable {kind : Primitive} {number : List Char} {outcome : Option Scalar} {bound : Nat}

theorem kind_yields {t : List Char} (h : Spells .primitive kind t) :
    (decoder bound .primitive).Yields t (some kind) :=
  h.yields Json.within_text

theorem value_yields {gap : List Char} (hgap : Blank gap)
    (hnumber : (decoder bound .scalar).Yields number outcome) :
    (decoder bound .scalar).Yields (gap ++ number) outcome :=
  hnumber.passBlanks (.decoder bound .scalar) hgap

/-- The fields of a constant. -/
abbrev constantFields : List Field := [.required "kind" .primitive, .required "value" .scalar]

theorem form_constant : Shape.form .constant = .record "Constant" constantFields
    fun (ofKind, value, ()) => ⟨ofKind, value⟩ := rfl

/-- A constant is read from an object as its number is. -/
theorem constant_object_yields {members : List (String × Member)} {blanks inside : List Char}
    (hb : Blank blanks) (hspaced : ∀ m ∈ members, m.2.Spaced)
    (hkeys : ∀ m ∈ members, QuotedText m.1 m.2.key)
    (hhas : "kind" ∈ members.map Prod.fst ∧ "value" ∈ members.map Prod.fst)
    (honce : members.Pairwise fun m m' => m.1 = m'.1 → m.1 ∉ ["kind", "value"])
    (hkind : ∀ m ∈ members, m.1 = "kind" → (decoder bound .primitive).Yields m.2.value (some kind))
    (hvalue : ∀ m ∈ members, m.1 = "value" → (decoder bound .scalar).Yields m.2.value outcome)
    (hothers : ∀ m ∈ members, m.1 ∉ ["kind", "value"] → WellFormed m.2.value)
    (h : Inside '\x7d' (members.map fun m => m.2.text) inside) :
    (decoder (bound + 1) .constant).Yields (blanks ++ '\x7b' :: inside)
      (outcome.map (Constant.mk kind)) := by
  have hfields (v : Scalar) (m : String × Member) (hm : m ∈ members)
      (hv : m.1 = "value" → outcome = some v) :
      Values.Forall (fun field value => field.name = m.1 →
        (field.reader (decoder bound)).Yields m.2.value (some value)) constantFields
        (kind, v, ()) := by
    refine ⟨fun hname => hkind m hm hname.symm, fun hname => ?_, trivial⟩
    rw [← hv hname.symm]
    exact hvalue m hm hname.symm
  cases outcome with
  | some v =>
    exact object_yields form_constant hb hspaced hkeys honce
      (fun m hm => hfields v m hm fun _ => rfl)
      ⟨fun hkey => absurd hhas.1 hkey, fun hkey => absurd hhas.2 hkey, trivial⟩ hothers h
  | none =>
    -- The members up to the payload are read, and no other one is named like it.
    obtain ⟨m, hm, hname⟩ := List.mem_map.mp hhas.2
    have hnone := hvalue m hm hname
    obtain ⟨before, after, rfl⟩ := List.append_of_mem hm
    obtain ⟨hbefore, -, hcross⟩ := List.pairwise_append.mp honce
    have hfields' (m' : String × Member) (hm' : m' ∈ before) :=
      hfields (.int 0) m' (by simp [hm']) fun hkey =>
        absurd (hcross m' hm' m (by simp) (hkey.trans hname.symm)) (by simp [hkey])
    exact object_yields_none form_constant hb hspaced hkeys hbefore hfields'
      (fun m' hm' => hothers m' (by simp [hm'])) (List.mem_cons_of_mem _ List.mem_cons_self)
      hname hnone h

/-- A constant is read from an array as its number is. -/
theorem constant_array_yields {first second blanks inside : List Char} (hb : Blank blanks)
    (hfirst : BeginsValue first) (hsecond : BeginsValue second)
    (hkind : (decoder bound .primitive).Yields first (some kind))
    (hvalue : (decoder bound .scalar).Yields second outcome)
    (h : Inside ']' [first, second] inside) :
    (decoder (bound + 1) .constant).Yields (blanks ++ '[' :: inside)
      (outcome.map (Constant.mk kind)) := by
  cases outcome with
  | some v =>
    have hparts : Positional (decoder bound) constantFields (kind, v, ()) [first, second] :=
      ⟨hkind, hfirst, hvalue, hsecond, trivial⟩
    exact array_yields form_constant hb hparts h
  | none =>
    cases h with
    | @parts _ text _ hfurther =>
    cases hfurther with
    | @part blanks' _ text _ hb' hclose =>
    intro rest _
    have hcomma : EndsNumber (blanks' ++ ',' :: (second ++ (text ++ rest))) :=
      .append hb' (endsNumber_comma _)
    have hend := hclose.endsNumber (.inl rfl) rest
    rw [decoder_eq, form_constant, Form.reader, record]
    simp only [List.append_assoc, List.cons_append]
    rw [read_peek _ _ hb (by decide), if_neg (by decide), if_pos rfl, innerDecoder, read_enter,
      read_map, read_first_field hfirst, Field.reader, hkind _ hcomma]
    simp only [Option.map_some, Option.bind_some]
    rw [read_next_field hb' hsecond (by decide), Field.reader, hvalue _ hend]
    rfl

/-- A number is not taken for the end of an array. -/
theorem beginsValue_number {gap : List Char} (hgap : Blank gap)
    (hhead : ∃ c s, number = c :: s ∧ (c = '-' ∨ c.isDigit = true)) :
    BeginsValue (gap ++ number) := by
  obtain ⟨c, s, rfl, rfl | hc⟩ := hhead
  · exact ⟨gap, '-', s, hgap, rfl, by decide, rfl⟩
  · refine ⟨gap, c, s, hgap, isBlank_of_isDigit hc, ?_, rfl⟩
    rintro rfl
    cases hc

/-- A constant is read as its number is, however it is laid out. -/
theorem ConstantText.yields {t : List Char} (h : ConstantText kind number t)
    (hhead : ∃ c s, number = c :: s ∧ (c = '-' ∨ c.isDigit = true))
    (hnumber : (decoder bound .scalar).Yields number outcome) :
    (decoder (bound + 1) .constant).Yields t (outcome.map (Constant.mk kind)) := by
  cases h with
  | object hb hspaced hkeys hhas honce hkind hvalue hothers h =>
    refine constant_object_yields hb hspaced hkeys hhas honce
      (fun m hm hname => kind_yields (hkind m hm hname)) ?_ hothers h
    intro m hm hname
    obtain ⟨gap, hgap, htext⟩ := hvalue m hm hname
    rw [htext]
    exact value_yields hgap hnumber
  | array hb hkind hgap h =>
    exact constant_array_yields hb hkind.begins (beginsValue_number hgap hhead) (kind_yields hkind)
      (value_yields hgap hnumber) h

theorem TaggedText.begins {tag : String} {payload : List Char → Prop} {t : List Char}
    (h : TaggedText tag payload t) : BeginsValue t := by
  obtain ⟨m, blanks, inside, hb, -, -, -, -, rfl⟩ := h
  exact ⟨blanks, '\x7b', inside, hb, by decide, by decide, rfl⟩

theorem TaggedText.yields {s shape : Shape} {table : List (Variant s.Carrier)} {tag : String}
    {make : shape.Carrier → s.Carrier} {payload : List Char → Prop} {t : List Char}
    {outcome : Option shape.Carrier} (h : TaggedText tag payload t)
    (hform : s.form = .variants table)
    (hfind : findVariant table tag = .ok (.data tag shape make))
    (hpayload : ∀ t, payload t → (decoder bound shape).Yields t outcome) :
    (decoder (bound + 1) s).Yields t (outcome.map make) := by
  obtain ⟨m, blanks, inside, hb, hspaced, hkey, hvalue, hinside, rfl⟩ := h
  exact tagged_yields hform hfind hb hspaced hkey (hpayload _ hvalue) hinside

end

/-- The forest of one constant is read as its number is. -/
theorem ConstantDocument.decode_eq {kind : Primitive} {number : List Char} {document : String}
    (h : ConstantDocument kind number document)
    (hhead : ∃ c s, number = c :: s ∧ (c = '-' ∨ c.isDigit = true)) {outcome : Option Scalar}
    (hnumber : ∀ bound, (decoder bound .scalar).Yields number outcome) :
    (Forest.decode document).toOption = outcome.map fun v => [.expr (.const ⟨kind, v⟩)] := by
  obtain ⟨tree, blanks, inside, trailing, htree, hb, hinside, htrailing, hdocument⟩ := h
  have hexpr (t : List Char) (ht : TaggedText "Constant" (ConstantText kind number) t) :=
    ht.yields (show Shape.form .expr = .variants _ from rfl) rfl
      fun t ht => ConstantText.yields ht hhead (hnumber 123)
  have hnode := htree.yields (show Shape.form .node = .variants _ from rfl) rfl hexpr
  have hlist := singleton_yields (show Shape.form (.list .node) = .list .node id from rfl) hb
    htree.begins hnode hinside
  rw [Forest.decode, Document.decode, hdocument, decodeChars_toOption hlist htrailing]
  cases outcome <;> rfl

theorem decodeChars_of_reports {s : Shape} {t : List Char} {outcome : Except Fault s.Carrier}
    (h : (decoder maxDepth s).Reports t outcome) : decodeChars s t = outcome := by
  have hrun := h [] EndsNumber.nil
  rw [List.append_nil] at hrun
  rw [decodeChars, hrun]
  cases outcome <;> rfl

/-! ## Two layouts -/

theorem spells_keyword (kind : Primitive) :
    Spells .primitive kind ('"' :: quotedTail kind.keyword) := by
  have hfind : findVariant (Primitive.all.map fun kind => .unit kind.keyword kind)
      kind.keyword = .ok (.unit kind.keyword kind) := by
    cases kind <;> rfl
  exact .bare rfl hfind Blank.nil (quotedText_quotedTail kind.keyword)

/-- A document without blanks, in which the constant is the array of its fields. -/
theorem constantDocument_tight (kind : Primitive) (number : List Char) {document : String}
    (h : document.toList = '[' :: ('\x7b' :: ((tightMember "Expression" ('\x7b' ::
      ((tightMember "Constant" ('[' :: ('"' :: quotedTail kind.keyword ++
        ',' :: (number ++ [']'])))).text ++ ['\x7d']))).text ++ ['\x7d']) ++ [']'])) :
    ConstantDocument kind number document := by
  have hconstant : ConstantText kind number _ :=
    .array Blank.nil (spells_keyword kind) Blank.nil
      (.parts (.part Blank.nil (.close Blank.nil)))
  have htagged (tag : String) {payload : List Char → Prop} {t : List Char} (ht : payload t) :
      TaggedText tag payload ('\x7b' :: ((tightMember tag t).text ++ ['\x7d'])) :=
    ⟨_, [], _, Blank.nil, spaced_tightMember tag t, quotedText_quotedTail tag, ht,
      .parts (.close Blank.nil), rfl⟩
  exact ⟨_, [], _, [], htagged "Expression" (htagged "Constant" hconstant), Blank.nil,
    .parts (.close Blank.nil), Blank.nil, by rw [h]; simp⟩

theorem taggedText_chars (tag : String) {payload : List Char → Prop} {j : Json} (sp : Spacing)
    {blanks : List Char} (hb : Blank blanks)
    (h : ∀ blanks, Blank blanks → payload (blanks ++ j.chars sp.deeper)) :
    TaggedText tag payload (blanks ++ (Json.variant tag j).chars sp) := by
  obtain ⟨inside, hinside, h'⟩ := inside_object sp [(tag, j)]
  rw [Json.variant, hinside]
  exact ⟨Member.written sp.deeper (tag, j), blanks, inside, hb, Member.spaced_written _ _,
    quotedText_quotedTail tag, h _ sp.deeper.colon_eq.2, h', rfl⟩

theorem constantText_chars (kind : Primitive) (n : Int) (sp : Spacing) {blanks : List Char}
    (hb : Blank blanks) :
    ConstantText kind (intText n).toList
      (blanks ++ (Json.object [("kind", .text kind.keyword), ("value", .int n)]).chars sp) := by
  let members : List (String × Member) :=
    [("kind", .written sp.deeper ("kind", .text kind.keyword)),
      ("value", .written sp.deeper ("value", .int n))]
  have hblank := sp.deeper.colon_eq.2
  obtain ⟨inside, hinside, h'⟩ := inside_object sp [("kind", .text kind.keyword), ("value", .int n)]
  have hmembers : Inside '\x7d' (members.map fun m => m.2.text) inside := h'
  rw [hinside]
  refine .object hb ?_ ?_ (by simp [members]) (by simp [members]) ?_ ?_ (by simp [members]) hmembers
  · simp [members, Member.spaced_written]
  · simp [members, Member.written, quotedText_quotedTail]
  · intro m hm hname
    obtain rfl : m = ("kind", .written sp.deeper ("kind", .text kind.keyword)) := by
      simp only [members, List.mem_cons, List.not_mem_nil, or_false] at hm
      rcases hm with rfl | rfl
      · rfl
      · simp at hname
    exact (spells_keyword kind).behind hblank
  · intro m hm hname
    obtain rfl : m = ("value", .written sp.deeper ("value", .int n)) := by
      simp only [members, List.mem_cons, List.not_mem_nil, or_false] at hm
      rcases hm with rfl | rfl
      · simp at hname
      · rfl
    exact ⟨_, hblank, rfl⟩

/-- The document that the encoder writes for a constant with a whole number. -/
theorem constantDocument_pretty (kind : Primitive) (n : Int) :
    ConstantDocument kind (intText n).toList
      (Json.array [.variant "Expression" (.variant "Constant"
        (.object [("kind", .text kind.keyword), ("value", .int n)]))]).pretty := by
  obtain ⟨inside, hinside, h⟩ := inside_array (.indented 0) [.variant "Expression"
    (.variant "Constant" (.object [("kind", .text kind.keyword), ("value", .int n)]))]
  refine ⟨_, [], inside, [], ?_, Blank.nil, h, Blank.nil, ?_⟩
  · exact taggedText_chars _ _ (Spacing.blank_gap _) fun _ hb =>
      taggedText_chars _ _ hb fun _ hb => constantText_chars kind n _ hb
  · rw [Json.pretty, Json.write_toList, hinside]
    simp

end SyntaxForest.Document

namespace SyntaxForest.Forest

open Document Numeric

/-- A fractional payload of a kind without fractions is refused. -/
theorem parse_float_payload {kind : Primitive} {x : Double} {document : String}
    (hkind : kind.isFloating = false)
    (h : (decode document).toOption = some [.expr (.const ⟨kind, .float x⟩)]) :
    parse document = .error (.invalid (.notAFloatKind kind)) := by
  refine parse_of_check_error h ?_
  have hvalidate : Constant.validate ⟨kind, .float x⟩ = .error (.notAFloatKind kind) := by
    simp [Constant.validate, hkind]
  rw [check, checkEach, Node.check_const, hvalidate]
  rfl

/-- The encoder writes the decimal of a whole payload. -/
theorem constantDocument_dump (kind : Primitive) (v : Int64) :
    ConstantDocument kind (intText v.toInt).toList (dump [.expr (.const ⟨kind, .int v⟩)]) :=
  constantDocument_pretty kind v.toInt

/-- A document of one constant of a kind without fractions, whose payload is written as an integer
of any length. It is accepted exactly when the integer has 64 bits and is not a zero behind a minus;
the payload is then that integer, and its decimal is written back. Otherwise the integer is read as
a fraction that the kind cannot have, or it is out of range. -/
theorem parse_integer {kind : Primitive} {t : List Char} {n : Int} {document : String}
    (hkind : kind.isFloating = false) (ht : IntegerText t n)
    (hdocument : ConstantDocument kind t document) :
    ((∃ forest, parse document = .ok forest) ↔ t ≠ ['-', '0'] ∧ -2 ^ 63 ≤ n ∧ n < 2 ^ 63) ∧
    (∀ forest, parse document = .ok forest →
      (∃ v : Int64, v.toInt = n ∧ forest = [.expr (.const ⟨kind, .int v⟩)]) ∧
      t = (intText n).toList ∧ ConstantDocument kind (intText n).toList (dump forest)) ∧
    ((¬ ∃ forest, parse document = .ok forest) →
      (∃ x, decodeChars .scalar t = .ok (.float x)) ∧
        parse document = .error (.invalid (.notAFloatKind kind)) ∨
      decodeChars .scalar t = .error .numberOutOfRange ∧
        ∃ fault, parse document = .error (.malformed fault)) ∧
    (t = ['-', '0'] → parse document = .error (.invalid (.notAFloatKind kind))) := by
  obtain ⟨outcome, hreports, hsettled⟩ := ht.reports
  have hscalar := decodeChars_of_reports (hreports _)
  have hdecode := hdocument.decode_eq ht.cons fun bound => (hreports _).yields
  rcases hsettled with ⟨hpayload, rfl⟩ | ⟨hpayload, ⟨x, rfl⟩ | rfl⟩
  · have hparse := parse_of_check_ok hdecode rfl
    have hn : (Int64.ofInt n).toInt = n := Int64.toInt_ofInt_of_le hpayload.2.1 hpayload.2.2
    rw [hparse]
    refine ⟨⟨fun _ => hpayload, fun _ => ⟨_, rfl⟩⟩, ?_, fun h => absurd ⟨_, rfl⟩ h,
      fun h => absurd h hpayload.1⟩
    rintro forest ⟨⟩
    refine ⟨⟨_, hn, rfl⟩, ht.eq_intText.resolve_right fun h => hpayload.1 h.1, ?_⟩
    have hdump := constantDocument_dump kind (Int64.ofInt n)
    rwa [hn] at hdump
  · have hparse := parse_float_payload hkind hdecode
    rw [hparse]
    exact ⟨⟨nofun, fun h => absurd h hpayload⟩, nofun, fun _ => .inl ⟨⟨x, hscalar⟩, rfl⟩,
      fun _ => rfl⟩
  · obtain ⟨fault, hparse⟩ := parse_of_decode_error hdecode
    rw [hparse]
    refine ⟨⟨nofun, fun h => absurd h hpayload⟩, nofun, fun _ => .inr ⟨hscalar, fault, rfl⟩, ?_⟩
    rintro rfl
    cases hscalar

/-- Numbers at the bounds, each in the array of a `long` constant: the least one is kept, the one
before it and a zero behind a minus are refused as fractions, and a one with four hundred zeros
behind it is out of range. -/
theorem parse_integer_bounds :
    let document (t : String) :=
      "[\x7b\"Expression\":\x7b\"Constant\":[\"long\"," ++ t ++ "]\x7d\x7d]"
    (∃ forest, parse (document "-9223372036854775808") = .ok forest) ∧
    parse (document "-9223372036854775809") = .error (.invalid (.notAFloatKind .long)) ∧
    parse (document "-0") = .error (.invalid (.notAFloatKind .long)) ∧
    ∃ fault, parse (document ("1" ++ Layout.zeros 400)) = .error (.malformed fault) := by
  intro document
  have hdocument (t : String) : ConstantDocument .long t.toList (document t) := by
    have hkeys : quotedTail "Expression" = "Expression\"".toList ∧
        quotedTail "Constant" = "Constant\"".toList ∧
        quotedTail Primitive.long.keyword = "long\"".toList := by decide
    apply constantDocument_tight
    simp [document, tightMember, Member.text, hkeys]
  have hdigits {d : Char} {ds : List Char} (hd : d.isDigit = true) (hzero : d ≠ '0')
      (hds : AllDigits ds) : WholeText (d :: ds) :=
    .inr ⟨d, ds, hd, hzero, hds, rfl⟩
  refine ⟨?_, ?_, ?_, ?_⟩
  · have hinteger : IntegerText "-9223372036854775808".toList (-2 ^ 63) :=
      ⟨"9223372036854775808".toList, hdigits rfl (by decide) (List.all_eq_true.mp rfl),
        .inr ⟨rfl, by decide⟩⟩
    exact (parse_integer rfl hinteger (hdocument _)).1.mpr (by decide)
  · have hinteger : IntegerText "-9223372036854775809".toList (-2 ^ 63 - 1) :=
      ⟨"9223372036854775809".toList, hdigits rfl (by decide) (List.all_eq_true.mp rfl),
        .inr ⟨rfl, by decide⟩⟩
    have hparse := parse_integer rfl hinteger (hdocument _)
    rcases hparse.2.2.1 fun h => absurd (hparse.1.mp h) (by decide) with ⟨-, h⟩ | ⟨hscalar, -⟩
    · exact h
    · have hread : (decodeChars .scalar "-9223372036854775809".toList).toOption.isSome = true := by
        decide +kernel
      rw [hscalar] at hread
      cases hread
  · have hinteger : IntegerText "-0".toList 0 := ⟨['0'], .inl rfl, .inr ⟨rfl, rfl⟩⟩
    exact (parse_integer rfl hinteger (hdocument _)).2.2.2 rfl
  · have htext (k : Nat) : ("1" ++ Layout.zeros k).toList = '1' :: List.replicate k '0' := by
      simp [Layout.zeros]
    have hlarge := hdocument ("1" ++ Layout.zeros 400)
    rw [htext] at hlarge
    have hzeros : AllDigits (List.replicate 400 '0') := by
      intro c hc
      rw [(List.mem_replicate.mp hc).2]
      rfl
    have hinteger : IntegerText ('1' :: List.replicate 400 '0')
        (Nat.ofDigitChars 10 ('1' :: List.replicate 400 '0') 0) :=
      ⟨_, hdigits rfl (by decide) hzeros, .inl ⟨rfl, rfl⟩⟩
    have hparse := parse_integer rfl hinteger hlarge
    rcases hparse.2.2.1 fun h => absurd (hparse.1.mp h).2.2 (by decide +kernel) with
      ⟨⟨x, hscalar⟩, -⟩ | ⟨-, h⟩
    · have hread :
          (decodeChars .scalar ('1' :: List.replicate 400 '0')).toOption.isNone = true := by
        decide +kernel
      rw [hscalar] at hread
      cases hread
    · exact h

end SyntaxForest.Forest
