import SyntaxForest.Proofs.Document.Layouts
import SyntaxForest.Proofs.Document.RoundTrip

/-!
# Layouts of the document of a forest

The encoder lays a document out in one way, and the reader takes every other: a forest is read from
each layout of its document, of which the document of the encoder is one.
-/

namespace SyntaxForest.Document

open Numeric

/-! ## The document of the encoder is a layout -/

theorem Blank.append {a b : List Char} (ha : Blank a) (hb : Blank b) : Blank (a ++ b) := by
  intro c hc
  rcases List.mem_append.mp hc with hc | hc
  · exact ha c hc
  · exact hb c hc

/-- Blanks may be put before any text of a value. -/
theorem Spells.behind {s : Shape} {v : s.Carrier} {t : List Char} (h : Spells s v t)
    {blanks : List Char} (hblanks : Blank blanks) : Spells s v (blanks ++ t) := by
  cases h with
  | text hform hb hq =>
    rw [← List.append_assoc]
    exact .text hform (hblanks.append hb) hq
  | number hform hb =>
    rw [← List.append_assoc]
    exact .number hform (hblanks.append hb)
  | unit hform ht =>
    obtain ⟨blanks', hb, rfl⟩ := ht
    exact .unit hform ⟨_, hblanks.append hb, by rw [List.append_assoc]⟩
  | bare hform hfind hb hq =>
    rw [← List.append_assoc]
    exact .bare hform hfind (hblanks.append hb) hq
  | tagged hform hfind hb hspaced hkey hvalue h =>
    rw [← List.append_assoc]
    exact .tagged hform hfind (hblanks.append hb) hspaced hkey hvalue h
  | list hform hb hparts h =>
    rw [← List.append_assoc]
    exact .list hform (hblanks.append hb) hparts h
  | object hform hb hspaced hkeys honce hvalues hnulls hmissing hothers h =>
    rw [← List.append_assoc]
    exact .object hform (hblanks.append hb) hspaced hkeys honce hvalues hnulls hmissing hothers h
  | array hform hb hlength hvalues hnulls hmissing h =>
    rw [← List.append_assoc]
    exact .array hform (hblanks.append hb) hlength hvalues hnulls hmissing h

/-- A member as the encoder writes it. -/
def Member.written (sp : Spacing) (m : String × Json) : Member where
  before := sp.gap
  key := '"' :: quotedTail m.1
  between := []
  value := sp.colon.toList.tail ++ m.2.chars sp

theorem Spacing.colon_eq (sp : Spacing) :
    sp.colon.toList = ':' :: sp.colon.toList.tail ∧ Blank sp.colon.toList.tail := by
  cases sp with
  | compact => exact ⟨rfl, Blank.nil⟩
  | indented level => exact ⟨by simp [Spacing.colon], by simp [Spacing.colon, Blank, isBlank]⟩

theorem Member.spaced_written (sp : Spacing) (m : String × Json) : (Member.written sp m).Spaced :=
  ⟨sp.blank_gap, Blank.nil⟩

theorem Member.text_written (sp : Spacing) (m : String × Json) :
    (Member.written sp m).text =
      sp.gap ++ '"' :: quotedTail m.1 ++ sp.colon.toList ++ m.2.chars sp := by
  rw [Member.text, Member.written, sp.colon_eq.1]
  simp

theorem further_itemsChars (sp close : Spacing) (items : List Json) :
    Further ']' (items.map fun j => sp.gap ++ j.chars sp)
      (Json.itemsChars sp items ++ (close.gap ++ [']'])) := by
  induction items with
  | nil => exact .close close.blank_gap
  | cons item items ih =>
    have h : Further ']' ((item :: items).map fun j => sp.gap ++ j.chars sp) _ :=
      .part Blank.nil ih
    simpa [Json.itemsChars] using h

theorem inside_array (sp : Spacing) (items : List Json) :
    ∃ inside, (Json.array items).chars sp = '[' :: inside ∧
      Inside ']' (items.map fun j => sp.deeper.gap ++ j.chars sp.deeper) inside := by
  cases items with
  | nil => exact ⟨[']'], rfl, .empty Blank.nil⟩
  | cons item items =>
    refine ⟨_, rfl, ?_⟩
    have h : Inside ']' ((item :: items).map fun j => sp.deeper.gap ++ j.chars sp.deeper) _ :=
      .parts (further_itemsChars sp.deeper sp items)
    simpa using h

theorem further_membersChars (sp close : Spacing) (ms : List (String × Json)) :
    Further '\x7d' (ms.map fun m => (Member.written sp m).text)
      (Json.membersChars sp ms ++ (close.gap ++ ['\x7d'])) := by
  induction ms with
  | nil => exact .close close.blank_gap
  | cons m ms ih =>
    have h : Further '\x7d' ((m :: ms).map fun m => (Member.written sp m).text) _ :=
      .part Blank.nil ih
    simpa [Json.membersChars, Member.text_written] using h

theorem inside_object (sp : Spacing) (ms : List (String × Json)) :
    ∃ inside, (Json.object ms).chars sp = '\x7b' :: inside ∧
      Inside '\x7d' (ms.map fun m => (Member.written sp.deeper m).text) inside := by
  cases ms with
  | nil => exact ⟨['\x7d'], rfl, .empty Blank.nil⟩
  | cons m ms =>
    refine ⟨_, rfl, ?_⟩
    have h : Inside '\x7d' ((m :: ms).map fun m => (Member.written sp.deeper m).text) _ :=
      .parts (further_membersChars sp.deeper sp ms)
    simpa [Member.text_written] using h

theorem Values.name_mem_of_mem_entries {fields : List Field} {values : Values fields} {e : Entry}
    (he : e ∈ Values.entries fields values) : e.name ∈ fields.map Field.name := by
  induction fields with
  | nil => cases he
  | cons field fields ih =>
    obtain ⟨value, values⟩ := values
    rcases List.mem_cons.mp he with rfl | he
    · simp [Field.name_entry]
    · exact List.mem_cons_of_mem _ (ih he)

/-- The members that the encoder writes for the fields of a record. -/
structure Answers (fields : List Field) (values : Values fields) (ms : List (String × Json)) :
    Prop where
  keys : ∀ m ∈ ms, m.1 ∈ fields.map Field.name
  once : (ms.map Prod.fst).Nodup
  spells : ∀ e ∈ Values.entries fields values, ∀ m ∈ ms, m.1 = e.name → ∀ v ∈ e.value,
    ∀ sp : Spacing, Spells e.shape v (m.2.chars sp)
  null : ∀ e ∈ Values.entries fields values, ∀ m ∈ ms, m.1 = e.name → e.value = none → m.2 = .null
  missing : ∀ e ∈ Values.entries fields values, e.name ∉ ms.map Prod.fst → e.value = none

theorem Answers.nil : Answers [] () [] := by
  constructor <;> simp [Values.entries]

/-- A field with its member, before fields with other names. -/
theorem Answers.cons {field : Field} {fields : List Field} {value : field.Carrier}
    {values : Values fields} {j : Json} {ms : List (String × Json)}
    (hname : field.name ∉ fields.map Field.name)
    (hspells : ∀ v ∈ (field.entry value).value, ∀ sp : Spacing,
      Spells (field.entry value).shape v (j.chars sp))
    (hnull : (field.entry value).value = none → j = .null) (h : Answers fields values ms) :
    Answers (field :: fields) (value, values) ((field.name, j) :: ms) where
  keys := by
    rw [List.forall_mem_cons]
    exact ⟨List.mem_cons_self, fun m hm => List.mem_cons_of_mem _ (h.keys m hm)⟩
  once := by
    rw [List.map_cons, List.nodup_cons]
    refine ⟨fun hmem => hname ?_, h.once⟩
    obtain ⟨m, hm, hkey : m.1 = field.name⟩ := List.mem_map.mp hmem
    exact hkey ▸ h.keys m hm
  spells := by
    simp only [Values.entries, List.forall_mem_cons]
    refine ⟨⟨fun _ => hspells, fun m hm hkey => ?_⟩, fun e he => ⟨fun hkey => ?_, h.spells e he⟩⟩
    · rw [Field.name_entry] at hkey
      exact absurd (hkey ▸ h.keys m hm) hname
    · exact absurd (hkey ▸ Values.name_mem_of_mem_entries he) hname
  null := by
    simp only [Values.entries, List.forall_mem_cons]
    refine ⟨⟨fun _ => hnull, fun m hm hkey => ?_⟩, fun e he => ⟨fun hkey => ?_, h.null e he⟩⟩
    · rw [Field.name_entry] at hkey
      exact absurd (hkey ▸ h.keys m hm) hname
    · exact absurd (hkey ▸ Values.name_mem_of_mem_entries he) hname
  missing := by
    simp only [Values.entries, List.forall_mem_cons]
    refine ⟨fun hkey => ?_, fun e he hkey => h.missing e he fun hmem => hkey ?_⟩
    · exact absurd (by simp [Field.name_entry]) hkey
    · exact List.mem_cons_of_mem _ hmem

/-- A field that is missing and has no member. -/
theorem Answers.absent {field : Field} {fields : List Field} {value : field.Carrier}
    {values : Values fields} {ms : List (String × Json)}
    (hname : field.name ∉ fields.map Field.name) (hvalue : (field.entry value).value = none)
    (h : Answers fields values ms) : Answers (field :: fields) (value, values) ms where
  keys m hm := List.mem_cons_of_mem _ (h.keys m hm)
  once := h.once
  spells := by
    simp only [Values.entries, List.forall_mem_cons]
    refine ⟨fun m hm hkey => ?_, h.spells⟩
    rw [Field.name_entry] at hkey
    exact absurd (hkey ▸ h.keys m hm) hname
  null := by
    simp only [Values.entries, List.forall_mem_cons]
    refine ⟨fun m hm hkey => ?_, h.null⟩
    rw [Field.name_entry] at hkey
    exact absurd (hkey ▸ h.keys m hm) hname
  missing := by
    simp only [Values.entries, List.forall_mem_cons]
    exact ⟨fun _ => hvalue, h.missing⟩

theorem Scalar.chars_toJson (v : Scalar) (sp : Spacing) :
    v.toJson.chars sp = v.toJson.chars .compact := by
  cases v <;> rfl

theorem spells_variant {s shape : Shape} {table : List (Variant s.Carrier)} {tag : String}
    {make : shape.Carrier → s.Carrier} {v : shape.Carrier} {j : Json}
    (hform : s.form = .variants table)
    (hfind : Reader.findVariant table tag = .ok (.data tag shape make))
    (h : ∀ sp : Spacing, Spells shape v (j.chars sp)) (sp : Spacing) :
    Spells s (make v) ((Json.variant tag j).chars sp) := by
  obtain ⟨inside, hinside, h'⟩ := inside_object sp [(tag, j)]
  rw [Json.variant, hinside]
  have hspells := (h sp.deeper).behind sp.deeper.colon_eq.2
  exact .tagged hform hfind Blank.nil (Member.spaced_written sp.deeper (tag, j))
    (quotedText_quotedTail tag) hspells h'

theorem spells_list {s item : Shape} {make : List item.Carrier → s.Carrier}
    {toJson : item.Carrier → Json} {vs : List item.Carrier} (hform : s.form = .list item make)
    (h : ∀ v ∈ vs, ∀ sp : Spacing, Spells item v ((toJson v).chars sp)) (sp : Spacing) :
    Spells s (make vs) ((Json.array (vs.map toJson)).chars sp) := by
  obtain ⟨inside, hinside, h'⟩ := inside_array sp (vs.map toJson)
  rw [hinside]
  let part (v : item.Carrier) := (v, sp.deeper.gap ++ (toJson v).chars sp.deeper)
  have hparts : ∀ p ∈ vs.map part, Spells item p.1 p.2 := by
    rw [List.forall_mem_map]
    exact fun v hv => (h v hv _).behind sp.deeper.blank_gap
  have hspells := Spells.list hform Blank.nil hparts (by simpa [part, Function.comp_def] using h')
  simpa [part, Function.comp_def] using hspells

theorem spells_record {s : Shape} {name : String} {fields : List Field}
    {make : Values fields → s.Carrier} {values : Values fields} {ms : List (String × Json)}
    (hform : s.form = .record name fields make) (h : Answers fields values ms) (sp : Spacing) :
    Spells s (make values) ((Json.object ms).chars sp) := by
  obtain ⟨inside, hinside, h'⟩ := inside_object sp ms
  rw [hinside]
  let member (m : String × Json) := (m.1, Member.written sp.deeper m)
  have honce : (ms.map member).Pairwise
      fun m m' => m.1 = m'.1 → m.1 ∉ fields.map Field.name := by
    rw [List.pairwise_map]
    exact (List.pairwise_map.mp h.once).imp fun hne heq => absurd heq hne
  have hmembers : Inside '\x7d' ((ms.map member).map fun m => m.2.text) inside := by
    simpa [member, Function.comp_def] using h'
  refine .object hform Blank.nil ?_ ?_ honce ?_ ?_ ?_ ?_ hmembers
  · rw [List.forall_mem_map]
    exact fun m _ => Member.spaced_written _ m
  · rw [List.forall_mem_map]
    exact fun m _ => quotedText_quotedTail m.1
  · intro e he
    rw [List.forall_mem_map]
    exact fun m hm hkey v hv => (h.spells e he m hm hkey v hv _).behind sp.deeper.colon_eq.2
  · intro e he
    rw [List.forall_mem_map]
    intro m hm hkey hnone
    refine ⟨_, sp.deeper.colon_eq.2, ?_⟩
    show sp.deeper.colon.toList.tail ++ m.2.chars sp.deeper = _
    rw [h.null e he m hm hkey hnone]
    rfl
  · intro e he hkey
    refine h.missing e he ?_
    simpa [member, Function.comp_def] using hkey
  · rw [List.forall_mem_map]
    exact fun m hm hkey => absurd (h.keys m hm) hkey

/-- The encoder writes a text of the value. -/
theorem Encodes.spells {s : Shape} {v : s.Carrier} {j : Json} (h : Encodes s v j) :
    ∀ sp : Spacing, Spells s v (j.chars sp) := by
  induction h using Encodes.rec (motive_2 := fun fields values ms _ =>
    (fields.map Field.name).Nodup → Answers fields values ms) with
  | @text s make t hform => exact fun sp => .text hform Blank.nil (quotedText_quotedTail t)
  | @scalar s make v hform =>
    intro sp
    rw [Scalar.chars_toJson]
    exact .number hform Blank.nil
  | unit s hform => exact fun sp => .unit hform ⟨[], Blank.nil, rfl⟩
  | @name s table tag value hform hfind =>
    exact fun sp => .bare hform hfind Blank.nil (quotedText_quotedTail tag)
  | variant s tag hform hfind _ ih => exact spells_variant hform hfind ih
  | record s hform _ ih => exact spells_record hform (ih (nodup_fieldNames hform))
  | list hform hobject _ ih => exact spells_list hform ih
  | nil => exact .nil
  | required _ _ ih ihrest hnames =>
    obtain ⟨hname, hnames⟩ := List.nodup_cons.mp hnames
    refine .cons hname ?_ nofun (ihrest hnames)
    rintro v ⟨⟩
    exact ih
  | present hj _ _ ih ihrest hnames =>
    obtain ⟨hname, hnames⟩ := List.nodup_cons.mp hnames
    refine .cons hname ?_ nofun (ihrest hnames)
    rintro v ⟨⟩
    exact ih
  | null _ ihrest hnames =>
    obtain ⟨hname, hnames⟩ := List.nodup_cons.mp hnames
    exact .cons hname nofun (fun _ => rfl) (ihrest hnames)
  | absent _ ihrest hnames =>
    obtain ⟨hname, hnames⟩ := List.nodup_cons.mp hnames
    exact .absent hname rfl (ihrest hnames)

/-! ## A few other layouts -/

/-- A member without blanks. -/
def tightMember (key : String) (value : List Char) : Member := ⟨[], '"' :: quotedTail key, [], value⟩

theorem spaced_tightMember (key : String) (value : List Char) : (tightMember key value).Spaced :=
  ⟨Blank.nil, Blank.nil⟩

theorem spells_tight_variant (s : Shape) (tag : String) {shape : Shape}
    {table : List (Variant s.Carrier)} {make : shape.Carrier → s.Carrier} {v : shape.Carrier}
    {t : List Char} (hform : s.form = .variants table)
    (hfind : Reader.findVariant table tag = .ok (.data tag shape make)) (h : Spells shape v t) :
    Spells s (make v) ('\x7b' :: ((tightMember tag t).text ++ ['\x7d'])) :=
  .tagged hform hfind Blank.nil (spaced_tightMember tag t) (quotedText_quotedTail tag) h
    (.parts (.close Blank.nil))

theorem spells_scalar (v : Scalar) : Spells .scalar v (v.toJson.chars .compact) :=
  (.number rfl Blank.nil : Spells .scalar (id v) ([] ++ v.toJson.chars .compact))

/-- A constant with its members in the other order, behind a member that is no field. -/
theorem spells_swapped_constant (c : Constant) {note value kind : List Char}
    (hnote : WellFormed note) (hvalue : Spells .scalar c.value value)
    (hkind : Spells .primitive c.kind kind) :
    Spells .constant c ('\x7b' :: ((tightMember "note" note).text ++
      ',' :: ((tightMember "value" value).text ++
        [' ', ','] ++ ((tightMember "kind" kind).text ++ ['\x7d'])))) := by
  let members : List (String × Member) := [("note", tightMember "note" note),
    ("value", tightMember "value" value), ("kind", tightMember "kind" kind)]
  have hmembers : Inside '\x7d' (members.map fun m => m.2.text) _ :=
    .parts (.part Blank.nil (.part (show Blank [' '] by simp [Blank, isBlank]) (.close Blank.nil)))
  have hvalues : ∀ e ∈ Values.entries [.required "kind" .primitive, .required "value" .scalar]
      (c.kind, c.value, ()), ∀ m ∈ members, m.1 = e.name →
        ∀ v ∈ e.value, Spells e.shape v m.2.value := by
    simp [members, Values.entries, Field.entry, tightMember, hkind, hvalue]
  have hspells := Spells.object (show Shape.form .constant = .record _ _ _ from rfl) Blank.nil
    (by simp [members, spaced_tightMember])
    (by simp [members, tightMember, quotedText_quotedTail]) (by simp [members, Field.name])
    hvalues (by simp [Values.entries, Field.entry])
    (by simp [members, Values.entries, Field.entry])
    (by simp [members, Field.name, tightMember, hnote]) hmembers
  simpa [members] using hspells

/-- A return of nothing as the array of its fields, of which the only one is left out. -/
theorem spells_return_nothing : Spells .ret (.ret none) ['[', ']'] := by
  have hvalues : ∀ e ∈ (Values.entries [.optional "value" .expr] (none, ())).drop
      ([] : List (List Char)).length, e.value = none := by
    simp [Values.entries, Field.entry]
  exact .array (show Shape.form .ret = .record _ _ _ from rfl) Blank.nil (by simp) (by simp)
    (by simp) hvalues (.empty Blank.nil)

end SyntaxForest.Document

namespace SyntaxForest.Forest

open Document

/-- The document spells the forest, with blanks behind it. -/
def LaidOut (forest : Forest) (document : String) : Prop :=
  ∃ t blanks, Spells (.list .node) forest t ∧ Blank blanks ∧ document.toList = t ++ blanks

theorem laidOut_dump (forest : Forest) : forest.LaidOut (dump forest) := by
  refine ⟨forest.document.chars (.indented 0), [], forest.encodes.spells _, Blank.nil, ?_⟩
  rw [dump_toList, List.append_nil]

/-- A forest whose trees are well formed is read from every layout of its document. -/
theorem parse_of_laidOut {forest : Forest} (hcheck : ∀ n ∈ forest, n.check = .ok ())
    (hrecovers : ∀ x ∈ forest.fractions, Recovers x) (hdepth : forest.document.depth ≤ 127) :
    forest.LaidOut (dump forest) ∧
      ∀ document, forest.LaidOut document → parse document = .ok forest := by
  refine ⟨forest.laidOut_dump, ?_⟩
  rintro document ⟨t, blanks, hspells, hb, hdocument⟩
  have hwithin : Shape.Within Recovers maxDepth (.list .node) forest :=
    ⟨hdepth, fun x hx => hrecovers x (forest.floats_document ▸ hx)⟩
  have hdecode : (decode document).toOption = some forest := by
    rw [decode, Document.decode, hdocument]
    exact decodeChars_toOption (hspells.yields hwithin) hb
  exact parse_of_check_ok hdecode (check_eq_ok hcheck)

/-- A constant with its members in the other order and one more among them, and a return as an
array, with a few blanks. -/
theorem parse_of_laidOut_rearranged :
    let forest : Forest := [.expr (.const ⟨.double, .float (.ofBits .double 0x4004000000000000)⟩),
      .stmt (.ret none)]
    (∀ n ∈ forest, n.check = .ok ()) ∧ (∀ x ∈ forest.fractions, Recovers x) ∧
    forest.document.depth ≤ 127 ∧
    parse (" [\x7b\"Expression\":\x7b\"Constant\":" ++
      "\x7b\"note\":[[]],\"value\":2.5 ,\"kind\":\"double\"\x7d\x7d\x7d," ++
      "\x7b\"Statement\":\x7b\"Return\":[]\x7d\x7d]\n") = .ok forest := by
  intro forest
  have hcheck : ∀ n ∈ forest, n.check = .ok () := by simp [forest]; exact ⟨rfl, rfl⟩
  have hrecovers : ∀ x ∈ forest.fractions, Recovers x := by decide +kernel
  have hdepth : forest.document.depth ≤ 127 := by decide +kernel
  refine ⟨hcheck, hrecovers, hdepth, (parse_of_laidOut hcheck hrecovers hdepth).2 _ ?_⟩
  have hnote : WellFormed ['[', '[', ']', ']'] := by
    have hinner : WellFormed ['[', ']'] :=
      .array Blank.nil (List.forall_mem_nil _) (.empty Blank.nil)
    exact .array Blank.nil (List.forall_mem_singleton.mpr hinner) (.parts (.close Blank.nil))
  have hconst := spells_swapped_constant ⟨.double, .float (.ofBits .double 0x4004000000000000)⟩
    hnote (spells_scalar _) (.bare rfl rfl Blank.nil (quotedText_quotedTail "double"))
  have hfirst := spells_tight_variant .node "Expression" rfl rfl
    (spells_tight_variant .expr "Constant" rfl rfl hconst)
  have hsecond := spells_tight_variant .node "Statement" rfl rfl
    (spells_tight_variant .stmt "Return" rfl rfl spells_return_nothing)
  have hblank : Blank [' '] ∧ Blank ['\n'] := by simp [Blank, isBlank]
  have hparts : ∀ part ∈ [(_, _), (_, _)], Spells .node part.1 part.2 :=
    List.forall_mem_cons.mpr ⟨hfirst, List.forall_mem_singleton.mpr hsecond⟩
  have hforest := Spells.list (show Shape.form (.list .node) = .list .node id from rfl) hblank.1
    hparts (.parts (.part Blank.nil (.close Blank.nil)))
  refine ⟨_, ['\n'], hforest, hblank.2, ?_⟩
  decide +kernel

end SyntaxForest.Forest
