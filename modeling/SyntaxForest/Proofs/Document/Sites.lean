import Mathlib.Data.List.Nodup
import SyntaxForest.Proofs.Document.Trees

/-!
# The parts of a document and the text around them

`Site` is the way from a document value to a part of it: through the elements of arrays, the
payloads of variants and the fields of records. Around a part there is always the same text, so
another one may be written in its place; with the text of the part itself, it is that of the whole
(`Site.chars_eq`). The parts of what is encoded are encoded, too (`Site.encodes`).
-/

namespace SyntaxForest

open Document

namespace Document

/-! ## The text of arrays and objects -/

namespace Spacing

/-- An element behind a comma. -/
def item (sp : Spacing) (t : List Char) : List Char := ',' :: (sp.gap ++ t)

/-- A member behind a comma, with any text for its value. -/
def member (sp : Spacing) (m : String × List Char) : List Char :=
  ',' :: (sp.gap ++ '"' :: (quotedTail m.1 ++ (sp.colon.toList ++ m.2)))

/-- An array whose elements have the given texts. -/
def arrayText (sp : Spacing) : List (List Char) → List Char
  | [] => ['[', ']']
  | ts => '[' :: ((ts.flatMap sp.deeper.item).tail ++ (sp.gap ++ [']']))

/-- An object whose members have the given texts. -/
def objectText (sp : Spacing) : List (String × List Char) → List Char
  | [] => ['\x7b', '\x7d']
  | ms => '\x7b' :: ((ms.flatMap sp.deeper.member).tail ++ (sp.gap ++ ['\x7d']))

end Spacing

/-- The texts of elements. -/
def Json.itemTexts (sp : Spacing) (items : List Json) : List (List Char) := items.map (chars sp)

/-- The keys of members and the texts of their values. -/
def Json.memberTexts (sp : Spacing) (ms : List (String × Json)) : List (String × List Char) :=
  ms.map fun m => (m.1, m.2.chars sp)

namespace Json

theorem itemsChars_eq (sp : Spacing) (items : List Json) :
    itemsChars sp items = (itemTexts sp items).flatMap sp.item := by
  induction items with
  | nil => simp [itemsChars, itemTexts]
  | cons item items ih => simpa [itemsChars, itemTexts, Spacing.item] using ih

theorem membersChars_eq (sp : Spacing) (ms : List (String × Json)) :
    membersChars sp ms = (memberTexts sp ms).flatMap sp.member := by
  induction ms with
  | nil => simp [membersChars, memberTexts]
  | cons m ms ih => simpa [membersChars, memberTexts, Spacing.member] using ih

theorem chars_array_eq (sp : Spacing) (items : List Json) :
    (array items).chars sp = sp.arrayText (itemTexts sp.deeper items) := by
  cases items with
  | nil => simp [chars, itemTexts, Spacing.arrayText]
  | cons item items =>
    have h := itemsChars_eq sp.deeper items
    simp only [itemTexts] at h
    simp [chars, itemTexts, Spacing.arrayText, Spacing.item, h]

theorem chars_object_eq (sp : Spacing) (ms : List (String × Json)) :
    (object ms).chars sp = sp.objectText (memberTexts sp.deeper ms) := by
  cases ms with
  | nil => simp [chars, memberTexts, Spacing.objectText]
  | cons m ms =>
    have h := membersChars_eq sp.deeper ms
    simp only [memberTexts] at h
    simp [chars, memberTexts, Spacing.objectText, Spacing.member, h]

end Json

theorem Spacing.endsNumber_items (sp : Spacing) (ts : List (List Char)) {tail : List Char}
    (h : EndsNumber tail) : EndsNumber (ts.flatMap sp.item ++ tail) := by
  cases ts with
  | nil => exact h
  | cons t ts => exact endsNumber_comma _

theorem Spacing.endsNumber_members (sp : Spacing) (ms : List (String × List Char))
    {tail : List Char} (h : EndsNumber tail) : EndsNumber (ms.flatMap sp.member ++ tail) := by
  cases ms with
  | nil => exact h
  | cons m ms => exact endsNumber_comma _

/-- A text that starts with a bracket, which no reader of values takes for null or for the end of a
list. -/
def Bracketed (t : List Char) : Prop := ∃ c s, t = c :: s ∧ (c = '[' ∨ c = '\x7b')

theorem Bracketed.head {t : List Char} (h : Bracketed t) :
    ∃ c s, t = c :: s ∧ isBlank c = false ∧ c ≠ ']' ∧ c ≠ 'n' := by
  obtain ⟨c, s, rfl, hc⟩ := h
  refine ⟨c, s, rfl, ?_⟩
  rcases hc with rfl | rfl <;> decide

theorem Bracketed.arrayText (sp : Spacing) (ts : List (List Char)) :
    Bracketed (sp.arrayText ts) := by
  cases ts <;> exact ⟨_, _, rfl, .inl rfl⟩

theorem Bracketed.objectText (sp : Spacing) (ms : List (String × List Char)) :
    Bracketed (sp.objectText ms) := by
  cases ms <;> exact ⟨_, _, rfl, .inr rfl⟩

/-! ## Parts of a document -/

/-- The shape of what a field holds when it is not missing. -/
def Field.shape : Field → Shape
  | .required _ shape => shape
  | .optional _ shape => shape

/-- The value `j'` of shape `s'` is a part of the value `j` of shape `s`: `j` itself, or a part of
an element, of a payload or of what a field holds. Where `t` is written in its place, `j` has the
text `plug t`. -/
inductive Site : (s : Shape) → Json → Spacing → (s' : Shape) → Json → Spacing →
    (plug : List Char → List Char) → Prop
  | here (s : Shape) (j : Json) (sp : Spacing) : Site s j sp s j sp id
  | item {s item s' : Shape} {make : List item.Carrier → s.Carrier} {j j' : Json}
      {sp sp' : Spacing} {plug : List Char → List Char} (before after : List Json)
      (hform : s.form = .list item make) (h : Site item j sp.deeper s' j' sp' plug) :
      Site s (.array (before ++ j :: after)) sp s' j' sp' fun t =>
        sp.arrayText (Json.itemTexts sp.deeper before ++
          plug t :: Json.itemTexts sp.deeper after)
  | payload {s shape s' : Shape} {table : List (Variant s.Carrier)} {tag : String}
      {make : shape.Carrier → s.Carrier} {j j' : Json} {sp sp' : Spacing}
      {plug : List Char → List Char} (hform : s.form = .variants table)
      (hfind : Reader.findVariant table tag = .ok (.data tag shape make))
      (h : Site shape j sp.deeper s' j' sp' plug) :
      Site s (.variant tag j) sp s' j' sp' fun t => sp.objectText [(tag, plug t)]
  | field {s s' : Shape} {name : String} {fields : List Field} {make : Values fields → s.Carrier}
      {field : Field} {j j' : Json} {sp sp' : Spacing} {plug : List Char → List Char}
      (before after : List (String × Json)) (hform : s.form = .record name fields make)
      (hfield : field ∈ fields) (h : Site field.shape j sp.deeper s' j' sp' plug) :
      Site s (.object (before ++ (field.name, j) :: after)) sp s' j' sp' fun t =>
        sp.objectText (Json.memberTexts sp.deeper before ++
          (field.name, plug t) :: Json.memberTexts sp.deeper after)

namespace Site

variable {s s' : Shape} {j j' : Json} {sp sp' : Spacing} {plug : List Char → List Char}

/-- With its own text in its place, a part leaves the text of the whole as it is. -/
theorem chars_eq (h : Site s j sp s' j' sp' plug) : j.chars sp = plug (j'.chars sp') := by
  induction h with
  | here s j sp => rfl
  | item before after hform h ih =>
    rw [Json.chars_array_eq]
    simp [Json.itemTexts, ih]
  | payload hform hfind h ih =>
    rw [Json.variant, Json.chars_object_eq]
    simp [Json.memberTexts, ih]
  | field before after hform hfield h ih =>
    rw [Json.chars_object_eq]
    simp [Json.memberTexts, ih]

theorem bracketed (h : Site s j sp s' j' sp' plug) {t : List Char} (ht : Bracketed t) :
    Bracketed (plug t) := by
  cases h with
  | here => exact ht
  | item => exact .arrayText _ _
  | payload => exact .objectText _ _
  | field => exact .objectText _ _

theorem null (h : Site s .null sp s' j' sp' plug) : j' = .null := by
  cases h
  rfl

end Site

/-! ## What is encoded in a list, a variant or a record -/

theorem Encodes.items {s item : Shape} {make : List item.Carrier → s.Carrier} {v : s.Carrier}
    {items : List Json} (hform : s.form = .list item make) (h : Encodes s v (.array items)) :
    ∀ j ∈ items, j.IsObject ∧ ∃ v, Encodes item v j := by
  generalize hj : Json.array items = j at h
  cases h with
  | list hform' hobject hitems =>
    cases hform.symm.trans hform'
    cases hj
    intro j hj
    obtain ⟨v, hv, rfl⟩ := List.mem_map.mp hj
    exact ⟨hobject v hv, v, hitems v hv⟩
  | text hform' | scalar hform' | unit _ hform' | name hform' _ | variant _ _ hform' _ _
  | record _ hform' _ => cases hform.symm.trans hform'

theorem Encodes.payload {s shape : Shape} {table : List (Variant s.Carrier)} {tag : String}
    {make : shape.Carrier → s.Carrier} {v : s.Carrier} {j : Json}
    (hform : s.form = .variants table)
    (hfind : Reader.findVariant table tag = .ok (.data tag shape make))
    (h : Encodes s v (.variant tag j)) : ∃ v, Encodes shape v j := by
  generalize hj : Json.variant tag j = json at h
  cases h with
  | variant _ _ hform' hfind' hpayload =>
    cases hform.symm.trans hform'
    cases hj
    cases hfind.symm.trans hfind'
    exact ⟨_, hpayload⟩
  | name => cases hj
  | text hform' | scalar hform' | unit _ hform' | record _ hform' _ | list hform' _ _ =>
    cases hform.symm.trans hform'

theorem Encodes.fields {s : Shape} {name : String} {fields : List Field}
    {make : Values fields → s.Carrier} {v : s.Carrier} {ms : List (String × Json)}
    (hform : s.form = .record name fields make) (h : Encodes s v (.object ms)) :
    ∃ values, EncodesFields fields values ms := by
  generalize hj : Json.object ms = j at h
  cases h with
  | record _ hform' hfields =>
    cases hform.symm.trans hform'
    cases hj
    exact ⟨_, hfields⟩
  | text hform' | scalar hform' | unit _ hform' | name hform' _ | variant _ _ hform' _ _
  | list hform' _ _ => cases hform.symm.trans hform'

/-- Every member of a record is one of its fields: null, or what the field holds. -/
theorem EncodesFields.mem {fields : List Field} {values : Values fields}
    {ms : List (String × Json)} (h : EncodesFields fields values ms) :
    ∀ m ∈ ms, ∃ field ∈ fields, field.name = m.1 ∧
      (m.2 = .null ∨ ∃ v, Encodes field.shape v m.2) ∧ ∃ value, FieldReads field value m.2 := by
  induction fields generalizing ms with
  | nil =>
    cases h
    simp
  | cons field fields ih =>
    have later {values : Values fields} {ms : List (String × Json)}
        (h : EncodesFields fields values ms) : ∀ m ∈ ms, ∃ f ∈ field :: fields, f.name = m.1 ∧
          (m.2 = .null ∨ ∃ v, Encodes f.shape v m.2) ∧ ∃ value, FieldReads f value m.2 := by
      intro m hm
      obtain ⟨f, hf, hrest⟩ := ih h m hm
      exact ⟨f, List.mem_cons_of_mem _ hf, hrest⟩
    cases h with
    | required h hrest =>
      rw [List.forall_mem_cons]
      exact ⟨⟨_, List.mem_cons_self, rfl, .inr ⟨_, h⟩, _, .required h.reads⟩, later hrest⟩
    | present hj h hrest =>
      rw [List.forall_mem_cons]
      exact ⟨⟨_, List.mem_cons_self, rfl, .inr ⟨_, h⟩, _, .of_isBracketed hj h.reads⟩, later hrest⟩
    | null hrest =>
      rw [List.forall_mem_cons]
      exact ⟨⟨_, List.mem_cons_self, rfl, .inl rfl, _, .null⟩, later hrest⟩
    | absent hrest => exact later hrest

/-- The members of a record have different keys. -/
theorem EncodesFields.nodup_keys {fields : List Field} {values : Values fields}
    {ms : List (String × Json)} (h : EncodesFields fields values ms)
    (hnames : (fields.map Field.name).Nodup) : (ms.map Prod.fst).Nodup := by
  have hsub : (ms.map Prod.fst).Sublist (fields.map Field.name) := by
    clear hnames
    induction fields generalizing ms with
    | nil =>
      cases h
      exact .slnil
    | cons field fields ih =>
      cases h with
      | required _ hrest => exact (ih hrest).cons_cons _
      | present _ _ hrest => exact (ih hrest).cons_cons _
      | null hrest => exact (ih hrest).cons_cons _
      | absent hrest => exact (ih hrest).cons _
  exact hnames.sublist hsub

/-- What stands in a field and is not null is encoded by the shape of the field. -/
theorem EncodesFields.encodes_field {fields : List Field} {values : Values fields}
    {ms : List (String × Json)} (h : EncodesFields fields values ms)
    (hnames : (fields.map Field.name).Nodup) {field : Field} (hfield : field ∈ fields) {j : Json}
    (hmem : (field.name, j) ∈ ms) (hj : j ≠ .null) : ∃ v, Encodes field.shape v j := by
  obtain ⟨field', hfield', hname, hencodes, -⟩ := h.mem _ hmem
  obtain rfl : field' = field := List.inj_on_of_nodup_map hnames hfield' hfield hname
  exact hencodes.resolve_left hj

/-- A part of what is encoded is encoded, too. -/
theorem Site.encodes {s s' : Shape} {j : Json} {ms : List (String × Json)} {sp sp' : Spacing}
    {plug : List Char → List Char} (h : Site s j sp s' (.object ms) sp' plug)
    (hj : ∃ v, Encodes s v j) : ∃ v, Encodes s' v (.object ms) := by
  generalize hpart : Json.object ms = part at h
  induction h with
  | here s j sp => exact hj
  | item before after hform h ih =>
    obtain ⟨v, hv⟩ := hj
    exact ih (hv.items hform _ (by simp)).2 hpart
  | payload hform hfind h ih =>
    obtain ⟨v, hv⟩ := hj
    exact ih (hv.payload hform hfind) hpart
  | @field s s' name fields make field j j' sp sp' plug before after hform hfield h ih =>
    obtain ⟨v, hv⟩ := hj
    obtain ⟨values, hfields⟩ := hv.fields hform
    have hne : j ≠ .null := by
      rintro rfl
      cases hpart.trans h.null
    exact ih (hfields.encodes_field (nodup_fieldNames hform) hfield (by simp) hne) hpart

end Document

end SyntaxForest
