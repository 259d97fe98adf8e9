import SyntaxForest.Proofs.Document.Nesting
import SyntaxForest.Proofs.Document.Skipping

/-!
# Layouts of a document

The document of a forest may be laid out in many ways: with other blanks between its tokens, with
the members of a record in another order and others among them, with a field that is missing left
out or written as null, and with a record as the array of its fields. `Spells` relates a value to
all its texts, and each of them is read as that value (`Spells.yields`).
-/

namespace SyntaxForest.Document

open Numeric Reader

/-! ## Spellings -/

/-- A field of a record with what it holds, if it is not missing. -/
structure Entry where
  name : String
  shape : Shape
  value : Option shape.Carrier

/-- A field with what it holds. -/
def Field.entry : (field : Field) → field.Carrier → Entry
  | .required name shape, value => ⟨name, shape, some value⟩
  | .optional name shape, value => ⟨name, shape, value⟩

/-- The fields of a record in their order, with what they hold. -/
def Values.entries : (fields : List Field) → Values fields → List Entry
  | [], () => []
  | field :: fields, (value, values) => field.entry value :: entries fields values

/-- The word for a value that is missing, behind blanks. -/
def NullText (t : List Char) : Prop := ∃ blanks, Blank blanks ∧ t = blanks ++ ['n', 'u', 'l', 'l']

/-- The texts of a value of a shape. Blanks may stand before every token. -/
inductive Spells : (s : Shape) → s.Carrier → List Char → Prop
  | text {s : Shape} {make : String → s.Carrier} {t : String} {blanks q : List Char}
      (hform : s.form = .text make) (hb : Blank blanks) (hq : QuotedText t q) :
      Spells s (make t) (blanks ++ q)
  | number {s : Shape} {make : Scalar → s.Carrier} {v : Scalar} {blanks : List Char}
      (hform : s.form = .scalar make) (hb : Blank blanks) :
      Spells s (make v) (blanks ++ v.toJson.chars .compact)
  | unit {s : Shape} {name : String} {value : s.Carrier} {t : List Char}
      (hform : s.form = .unit name value) (ht : NullText t) : Spells s value t
  | bare {s : Shape} {table : List (Variant s.Carrier)} {tag : String} {value : s.Carrier}
      {blanks q : List Char} (hform : s.form = .variants table)
      (hfind : findVariant table tag = .ok (.unit tag value)) (hb : Blank blanks)
      (hq : QuotedText tag q) : Spells s value (blanks ++ q)
  | tagged {s shape : Shape} {table : List (Variant s.Carrier)} {tag : String}
      {make : shape.Carrier → s.Carrier} {v : shape.Carrier} {m : Member}
      {blanks inside : List Char} (hform : s.form = .variants table)
      (hfind : findVariant table tag = .ok (.data tag shape make)) (hb : Blank blanks)
      (hspaced : m.Spaced) (hkey : QuotedText tag m.key) (hvalue : Spells shape v m.value)
      (h : Inside '\x7d' [m.text] inside) : Spells s (make v) (blanks ++ '\x7b' :: inside)
  | list {s item : Shape} {make : List item.Carrier → s.Carrier}
      {parts : List (item.Carrier × List Char)} {blanks inside : List Char}
      (hform : s.form = .list item make) (hb : Blank blanks)
      (hparts : ∀ part ∈ parts, Spells item part.1 part.2)
      (h : Inside ']' (parts.map Prod.snd) inside) :
      Spells s (make (parts.map Prod.fst)) (blanks ++ '[' :: inside)
  /-- The members of a record stand in any order, each field at most once. A field without a member
  is missing, and so is one that is null. Keys that are no fields may be repeated and have any
  value. -/
  | object {s : Shape} {name : String} {fields : List Field} {make : Values fields → s.Carrier}
      {values : Values fields} {members : List (String × Member)} {blanks inside : List Char}
      (hform : s.form = .record name fields make) (hb : Blank blanks)
      (hspaced : ∀ m ∈ members, m.2.Spaced) (hkeys : ∀ m ∈ members, QuotedText m.1 m.2.key)
      (honce : members.Pairwise fun m m' => m.1 = m'.1 → m.1 ∉ fields.map Field.name)
      (hvalues : ∀ e ∈ Values.entries fields values, ∀ m ∈ members, m.1 = e.name →
        ∀ v ∈ e.value, Spells e.shape v m.2.value)
      (hnulls : ∀ e ∈ Values.entries fields values, ∀ m ∈ members, m.1 = e.name →
        e.value = none → NullText m.2.value)
      (hmissing : ∀ e ∈ Values.entries fields values, e.name ∉ members.map Prod.fst →
        e.value = none)
      (hothers : ∀ m ∈ members, m.1 ∉ fields.map Field.name → WellFormed m.2.value)
      (h : Inside '\x7d' (members.map fun m => m.2.text) inside) :
      Spells s (make values) (blanks ++ '\x7b' :: inside)
  /-- A record may be the array of its fields in their order. What is left out at the end, or null,
  is missing. -/
  | array {s : Shape} {name : String} {fields : List Field} {make : Values fields → s.Carrier}
      {values : Values fields} {parts : List (List Char)} {blanks inside : List Char}
      (hform : s.form = .record name fields make) (hb : Blank blanks)
      (hlength : parts.length ≤ fields.length)
      (hvalues : ∀ p ∈ (Values.entries fields values).zip parts, ∀ v ∈ p.1.value,
        Spells p.1.shape v p.2)
      (hnulls : ∀ p ∈ (Values.entries fields values).zip parts, p.1.value = none → NullText p.2)
      (hmissing : ∀ e ∈ (Values.entries fields values).drop parts.length, e.value = none)
      (h : Inside ']' parts inside) : Spells s (make values) (blanks ++ '[' :: inside)

/-! ## How spellings begin -/

/-- Shapes whose values are written in brackets, so that none is mistaken for null. -/
def Shape.isBracketed (s : Shape) : Bool :=
  match s.form with
  | .variants table => table.all fun
    | .data _ _ _ => true
    | .unit _ _ => false
  | .record _ _ _ => true
  | .list _ _ => true
  | _ => false

/-- A field that may be missing is written in brackets if it is not. -/
def Form.optionsBracketed {α : Type} : Form α → Bool
  | .record _ fields _ => fields.all fun
    | .required _ _ => true
    | .optional _ shape => shape.isBracketed
  | _ => true

theorem Shape.form_optionsBracketed (s : Shape) : s.form.optionsBracketed = true := by
  cases s <;> rfl

theorem isBracketed_of_optional {s : Shape} {name : String} {fields : List Field}
    {make : Values fields → s.Carrier} (hform : s.form = .record name fields make) {key : String}
    {shape : Shape} (h : Field.optional key shape ∈ fields) : shape.isBracketed = true := by
  have hoptions : (Form.record name fields make).optionsBracketed = true :=
    hform ▸ s.form_optionsBracketed
  exact List.all_eq_true.mp hoptions _ h

/-- A number begins with a digit or a minus, and what has no number with the word for null. -/
theorem scalar_chars_cons (v : Scalar) :
    ∃ c t, v.toJson.chars .compact = c :: t ∧ isBlank c = false ∧ c ≠ ']' := by
  have begins {t : List Char} (h : ∃ c s, t = c :: s ∧ (c = '-' ∨ c.isDigit = true)) :
      ∃ c s, t = c :: s ∧ isBlank c = false ∧ c ≠ ']' := by
    obtain ⟨c, s, ht, rfl | hc⟩ := h
    · exact ⟨'-', s, ht, rfl, by decide⟩
    · exact ⟨c, s, ht, isBlank_of_isDigit hc, by rintro rfl; cases hc⟩
  cases v with
  | int n => exact begins (intText_cons n.toInt)
  | float x =>
    cases hx : x.isFinite with
    | true => exact begins (documentLayout_text_cons hx)
    | false =>
      refine ⟨'n', ['u', 'l', 'l'], ?_, rfl, by decide⟩
      rw [Scalar.toJson, Json.chars, documentLayout_text_of_not_isFinite hx]
      rfl

theorem Spells.begins {s : Shape} {v : s.Carrier} {t : List Char} (h : Spells s v t) :
    BeginsValue t := by
  cases h with
  | text hform hb hq =>
    obtain ⟨pieces, -, -, rfl⟩ := hq
    exact ⟨_, '"', _, hb, by decide, by decide, rfl⟩
  | @number _ make v blanks hform hb =>
    obtain ⟨c, t, ht, hc, hne⟩ := scalar_chars_cons v
    exact ⟨_, c, t, hb, hc, hne, by rw [ht]⟩
  | unit hform ht =>
    obtain ⟨blanks, hb, rfl⟩ := ht
    exact ⟨_, 'n', _, hb, by decide, by decide, rfl⟩
  | bare hform hfind hb hq =>
    obtain ⟨pieces, -, -, rfl⟩ := hq
    exact ⟨_, '"', _, hb, by decide, by decide, rfl⟩
  | tagged hform hfind hb => exact ⟨_, '\x7b', _, hb, by decide, by decide, rfl⟩
  | list hform hb => exact ⟨_, '[', _, hb, by decide, by decide, rfl⟩
  | object hform hb => exact ⟨_, '\x7b', _, hb, by decide, by decide, rfl⟩
  | array hform hb => exact ⟨_, '[', _, hb, by decide, by decide, rfl⟩

theorem Spells.begins_of_isBracketed {s : Shape} {v : s.Carrier} {t : List Char}
    (h : Spells s v t) (hs : s.isBracketed = true) :
    ∃ blanks c r, Blank blanks ∧ (c = '[' ∨ c = '\x7b') ∧ t = blanks ++ c :: r := by
  cases h with
  | text hform | number hform | unit hform => simp [Shape.isBracketed, hform] at hs
  | bare hform hfind =>
    simp only [Shape.isBracketed, hform] at hs
    cases List.all_eq_true.mp hs _ (mem_of_findVariant hfind)
  | tagged hform hfind hb => exact ⟨_, _, _, hb, .inr rfl, rfl⟩
  | list hform hb => exact ⟨_, _, _, hb, .inl rfl, rfl⟩
  | object hform hb => exact ⟨_, _, _, hb, .inr rfl, rfl⟩
  | array hform hb => exact ⟨_, _, _, hb, .inl rfl, rfl⟩

/-! ## Reading what is spelled -/

namespace Reader

variable {α σ : Type}

theorem Yields.passBlanks {p : Reader α} (hp : PassesBlanks p) {blanks t : List Char}
    (hb : Blank blanks) {outcome : Option α} (h : p.Yields t outcome) :
    p.Yields (blanks ++ t) outcome := by
  intro rest hr
  rw [List.append_assoc, hp hb, h rest hr]

theorem nullable_yields_none {p : Reader α} {t : List Char} (h : NullText t) :
    p.nullable.Yields t (some none) := by
  obtain ⟨blanks, hb, rfl⟩ := h
  have hpass : PassesBlanks p.nullable := .peek _ _
  refine .passBlanks hpass hb ?_
  intro rest _
  rw [nullable, List.cons_append, read_peek_cons _ _ (by decide)]
  simp [read_nullWord]

theorem unit_yields_of_null {expected : Expected} {t : List Char} (h : NullText t) :
    (unit expected).Yields t (some ()) := by
  obtain ⟨blanks, hb, rfl⟩ := h
  exact .passBlanks (.peek _ _) hb (unit_yields expected)

/-- A value that is not missing is read as without the choice, unless it begins like null. -/
theorem nullable_yields_some {p : Reader α} (hp : PassesBlanks p) {blanks r : List Char} {c : Char}
    (hb : Blank blanks) (hc : c = '[' ∨ c = '\x7b') {v : α}
    (h : p.Yields (blanks ++ c :: r) (some v)) :
    p.nullable.Yields (blanks ++ c :: r) (some (some v)) := by
  intro rest hr
  have hread := h rest hr
  have hn : isBlank c = false ∧ c ≠ 'n' := by rcases hc with rfl | rfl <;> decide
  rw [List.append_assoc] at hread ⊢
  rw [hp hb] at hread
  rw [nullable, List.cons_append, read_peek _ _ hb hn.1, if_neg hn.2, read_map, ← List.cons_append,
    hread]
  rfl

/-! ## Lists -/

theorem read_further_items {item : Reader α} (hitem : PassesBlanks item)
    {parts : List (α × List Char)} (hparts : ∀ part ∈ parts, item.Yields part.2 (some part.1))
    (hbegins : ∀ part ∈ parts, BeginsValue part.2) {text : List Char}
    (h : Further ']' (parts.map Prod.snd) text) (before : List α) (rest : List Char) :
    (iterate (listStep item) before).read (text ++ rest) =
      some (before.reverse ++ parts.map Prod.fst, rest) := by
  induction parts generalizing text before with
  | nil =>
    cases h with
    | close hb =>
    rw [List.append_assoc, List.singleton_append, read_listStep_close item hb]
    simp
  | cons part parts ih =>
    rw [List.forall_mem_cons] at hparts hbegins
    cases h with
    | @part blanks _ text _ hb h =>
    obtain ⟨blanks', c, s, hb', hc, hne, hpart⟩ := hbegins.1
    have hread := hparts.1 (text ++ rest) (h.endsNumber (.inl rfl) rest)
    simp only [hpart, List.append_assoc, List.cons_append] at hread ⊢
    rw [hitem hb'] at hread
    rw [read_listStep_comma item hb hb' hc hne, read_bind, hread]
    simp only [Option.map_some, Option.bind_some, ih hparts.2 hbegins.2 h]
    simp

theorem read_items {item : Reader α} (hitem : PassesBlanks item)
    {parts : List (α × List Char)} (hparts : ∀ part ∈ parts, item.Yields part.2 (some part.1))
    (hbegins : ∀ part ∈ parts, BeginsValue part.2) {text : List Char}
    (h : Inside ']' (parts.map Prod.snd) text) (rest : List Char) :
    (items item).read (text ++ rest) = some (parts.map Prod.fst, rest) := by
  cases parts with
  | nil =>
    cases h with
    | empty hb =>
    rw [List.append_assoc, List.singleton_append, items, read_peek _ _ hb (by decide)]
    simp
  | cons part parts =>
    cases h with
    | @parts _ text _ h =>
    have hfurther := read_further_items hitem hparts hbegins (.part Blank.nil h) [] rest
    obtain ⟨blanks, c, s, hb, hc, hne, hpart⟩ := hbegins part List.mem_cons_self
    simp only [hpart, List.nil_append, List.append_assoc, List.cons_append, List.reverse_nil]
      at hfurther ⊢
    rw [read_items_open item hb hc hne, hfurther]

/-! ## Objects -/

/-- Reading the members one after the other leads from one state to another. -/
inductive Takes (member : σ → String → Reader σ) : σ → List (String × Member) → σ → Prop
  | nil {state : σ} : Takes member state [] state
  | cons {state state' state'' : σ} {m : String × Member} {members : List (String × Member)}
      (h : (member state m.1).Yields (m.2.between ++ ':' :: m.2.value) (some state'))
      (hrest : Takes member state' members state'') : Takes member state (m :: members) state''

/-- Members that are read leave the loop in another state, in front of the members behind them. -/
theorem read_taken_members {member : σ → String → Reader σ} {state state' : σ}
    {members later : List (String × Member)} (htakes : Takes member state members state')
    (hspaced : ∀ m ∈ members, m.2.Spaced) (hkeys : ∀ m ∈ members, QuotedText m.1 m.2.key)
    {text : List Char} (h : Further '\x7d' ((members ++ later).map fun m => m.2.text) text) :
    ∃ left, Further '\x7d' (later.map fun m => m.2.text) left ∧
      ∀ rest, (iterate (membersStep member) state).read (text ++ rest) =
        (iterate (membersStep member) state').read (left ++ rest) := by
  induction htakes generalizing text with
  | nil => exact ⟨text, h, fun _ => rfl⟩
  | @cons state state' state'' m members hyields hrest ih =>
    rw [List.forall_mem_cons] at hspaced hkeys
    cases h with
    | @part blanks _ text _ hb h =>
    obtain ⟨left, hleft, hread⟩ := ih hspaced.2 hkeys.2 h
    refine ⟨left, hleft, fun rest => ?_⟩
    obtain ⟨q, hq, hkey⟩ := read_text_of_quoted hkeys.1
    have hmember := hyields (text ++ rest) (h.endsNumber (.inr rfl) rest)
    simp only [Member.text, hq, List.append_assoc, List.cons_append] at hmember ⊢
    rw [read_membersStep_comma member hb hspaced.1.before state (hkey _), read_bind, hmember]
    exact hread rest

/-- A member that is not read stops the loop. -/
theorem read_failing_member {member : σ → String → Reader σ} {state : σ} {m : String × Member}
    {later : List (String × Member)} (hspaced : m.2.Spaced) (hkey : QuotedText m.1 m.2.key)
    (hyields : (member state m.1).Yields (m.2.between ++ ':' :: m.2.value) none) {text : List Char}
    (h : Further '\x7d' ((m :: later).map fun m => m.2.text) text) (rest : List Char) :
    (iterate (membersStep member) state).read (text ++ rest) = none := by
  cases h with
  | @part blanks _ text _ hb h =>
  obtain ⟨q, hq, hkey⟩ := read_text_of_quoted hkey
  have hmember := hyields (text ++ rest) (h.endsNumber (.inr rfl) rest)
  simp only [Member.text, hq, List.append_assoc, List.cons_append] at hmember ⊢
  rw [read_membersStep_comma member hb hspaced.before state (hkey _), read_bind, hmember]
  rfl

/-- The members of an object read as if a comma stood before the first of them, too. -/
theorem read_opened_members (member : σ → String → Reader σ) (state : σ)
    {members : List (String × Member)} (hspaced : ∀ m ∈ members, m.2.Spaced)
    (hkeys : ∀ m ∈ members, QuotedText m.1 m.2.key) {text : List Char}
    (h : Inside '\x7d' (members.map fun m => m.2.text) text) :
    ∃ left, Further '\x7d' (members.map fun m => m.2.text) left ∧
      ∀ rest, (Reader.members member state).read (text ++ rest) =
        (iterate (membersStep member) state).read (left ++ rest) := by
  cases members with
  | nil =>
    cases h with
    | @empty blanks hb =>
    refine ⟨_, .close hb, fun rest => ?_⟩
    rw [List.append_assoc, List.singleton_append, Reader.members, read_peek _ _ hb (by decide),
      read_membersStep_close member hb]
    simp
  | cons m members =>
    cases h with
    | @parts _ text _ h =>
    refine ⟨_, .part Blank.nil h, fun rest => ?_⟩
    obtain ⟨q, hq, hkey⟩ := read_text_of_quoted (hkeys m List.mem_cons_self)
    simp only [Member.text, hq, List.nil_append, List.append_assoc, List.cons_append]
    rw [read_members_open member (hspaced m List.mem_cons_self).before state (hkey _)]

theorem read_members {member : σ → String → Reader σ} {state state' : σ}
    {members : List (String × Member)} (htakes : Takes member state members state')
    (hspaced : ∀ m ∈ members, m.2.Spaced) (hkeys : ∀ m ∈ members, QuotedText m.1 m.2.key)
    {text : List Char} (h : Inside '\x7d' (members.map fun m => m.2.text) text)
    (rest : List Char) :
    (Reader.members member state).read (text ++ rest) = some (state', rest) := by
  obtain ⟨left, hleft, hopened⟩ := read_opened_members member state hspaced hkeys h
  rw [← List.append_nil members] at hleft
  obtain ⟨left, hleft, htaken⟩ := read_taken_members htakes hspaced hkeys hleft
  rw [hopened, htaken]
  cases hleft with
  | close hb => rw [List.append_assoc, List.singleton_append, read_membersStep_close member hb]

/-- An object with a member that is not read is not read. -/
theorem read_members_none {member : σ → String → Reader σ} {state state' : σ}
    {before after : List (String × Member)} {m : String × Member}
    (htakes : Takes member state before state')
    (hyields : (member state' m.1).Yields (m.2.between ++ ':' :: m.2.value) none)
    (hspaced : ∀ m' ∈ before ++ m :: after, m'.2.Spaced)
    (hkeys : ∀ m' ∈ before ++ m :: after, QuotedText m'.1 m'.2.key) {text : List Char}
    (h : Inside '\x7d' ((before ++ m :: after).map fun m => m.2.text) text) (rest : List Char) :
    (Reader.members member state).read (text ++ rest) = none := by
  obtain ⟨left, hleft, hopened⟩ := read_opened_members member state hspaced hkeys h
  obtain ⟨left, hleft, htaken⟩ := read_taken_members htakes
    (fun m' hm' => hspaced m' (by simp [hm'])) (fun m' hm' => hkeys m' (by simp [hm'])) hleft
  rw [hopened, htaken]
  exact read_failing_member (hspaced m (by simp)) (hkeys m (by simp)) hyields hleft rest

end Reader

/-! ## Records -/

/-- The slots of a record after members with the given keys have been read. -/
def Slots.filled (keys : List String) : (fields : List Field) → Values fields → Slots fields
  | [], () => ()
  | field :: fields, (value, values) =>
    (if field.name ∈ keys then some value else none, filled keys fields values)

/-- A property of every field of a record and what it holds. -/
def Values.Forall (Q : (field : Field) → field.Carrier → Prop) :
    (fields : List Field) → Values fields → Prop
  | [], () => True
  | field :: fields, (value, values) => Q field value ∧ Forall Q fields values

theorem Slots.filled_nil (fields : List Field) (values : Values fields) :
    Slots.filled [] fields values = Slots.empty fields := by
  induction fields with
  | nil => rfl
  | cons field fields ih => simp [Slots.filled, Slots.empty, ih]

/-- A key that is no field fills no slot. -/
theorem Slots.filled_other {k : String} {keys : List String} {fields : List Field}
    (hk : k ∉ fields.map Field.name) (values : Values fields) :
    Slots.filled (k :: keys) fields values = Slots.filled keys fields values := by
  induction fields with
  | nil => rfl
  | cons field fields ih =>
    simp only [List.map_cons, List.mem_cons, not_or] at hk
    simp [Slots.filled, ih hk.2, Ne.symm hk.1]

/-- Once the members of all fields that are not missing have been read, the record is complete. -/
theorem Slots.complete_filled {keys : List String} {fields : List Field} {values : Values fields}
    (h : Values.Forall (fun field value => field.name ∉ keys → field.default? = some value)
      fields values) : Slots.complete fields (Slots.filled keys fields values) = .ok values := by
  induction fields with
  | nil => rfl
  | cons field fields ih =>
    obtain ⟨value, values⟩ := values
    have hslot : (if field.name ∈ keys then some value else none).or field.default? =
        some value := by
      split
      · rfl
      · next hkey => exact h.1 hkey
    rw [Slots.filled, Slots.complete, hslot, ih h.2]

namespace Reader

/-- A member with a key that is no field is passed over. -/
theorem fieldMember_yields_other {decoder : Decoder} {fields : List Field} {k : String}
    (hk : k ∉ fields.map Field.name) (slots : Slots fields) {blanks t : List Char}
    (hb : Blank blanks) (ht : WellFormed t) :
    (fieldMember decoder fields slots k).Yields (blanks ++ ':' :: t) (some slots) := by
  induction fields with
  | nil =>
    have hskip : (colon.andThen skip).Yields (blanks ++ ':' :: t) (some ()) := by
      intro rest hr
      rw [List.append_assoc, List.cons_append, read_colon hb]
      exact ht.yields rest hr
    exact hskip.map fun _ => ()
  | cons field fields ih =>
    obtain ⟨slot, slots⟩ := slots
    simp only [List.map_cons, List.mem_cons, not_or] at hk
    rw [fieldMember_ne hk.1]
    exact (ih hk.2 slots).map (slot, ·)

/-- A member of a field that has not been read yet fills the slot of that field. -/
theorem fieldMember_yields {decoder : Decoder} {fields : List Field} {k : String}
    {values : Values fields} {keys : List String} (hk : k ∈ fields.map Field.name)
    (hnames : (fields.map Field.name).Nodup) (hnew : k ∉ keys) {blanks t : List Char}
    (hb : Blank blanks)
    (h : Values.Forall (fun field value => field.name = k →
      (field.reader decoder).Yields t (some value)) fields values) :
    (fieldMember decoder fields (Slots.filled keys fields values) k).Yields (blanks ++ ':' :: t)
      (some (Slots.filled (k :: keys) fields values)) := by
  induction fields with
  | nil => cases hk
  | cons field fields ih =>
    obtain ⟨value, values⟩ := values
    rw [List.map_cons, List.nodup_cons] at hnames
    by_cases hfield : k = field.name
    · subst hfield
      rw [Slots.filled, if_neg hnew, fieldMember_self, Slots.filled, Slots.filled_other hnames.1,
        if_pos List.mem_cons_self]
      have hvalue : (colon.andThen (field.reader decoder)).Yields (blanks ++ ':' :: t)
          (some value) := by
        intro rest hr
        rw [List.append_assoc, List.cons_append, read_colon hb]
        exact h.1 rfl rest hr
      exact hvalue.map fun value => (some value, _)
    · have hk' : k ∈ fields.map Field.name := (List.mem_cons.mp hk).resolve_left hfield
      have hslot : (if field.name ∈ k :: keys then some value else none) =
          if field.name ∈ keys then some value else none := by
        simp [Ne.symm hfield]
      rw [Slots.filled, fieldMember_ne hfield, Slots.filled, hslot]
      exact (ih hk' hnames.2 h.2).map _

/-- Members in any order fill the slots of the fields they are named for. -/
theorem takes_fieldMembers {decoder : Decoder} {fields : List Field} {values : Values fields}
    (hnames : (fields.map Field.name).Nodup) {members : List (String × Member)}
    (hspaced : ∀ m ∈ members, m.2.Spaced)
    (honce : members.Pairwise fun m m' => m.1 = m'.1 → m.1 ∉ fields.map Field.name)
    (hfields : ∀ m ∈ members, Values.Forall (fun field value => field.name = m.1 →
      (field.reader decoder).Yields m.2.value (some value)) fields values)
    (hothers : ∀ m ∈ members, m.1 ∉ fields.map Field.name → WellFormed m.2.value)
    (keys : List String) (hnew : ∀ m ∈ members, m.1 ∈ keys → m.1 ∉ fields.map Field.name) :
    Takes (fieldMember decoder fields) (Slots.filled keys fields values) members
      (Slots.filled ((members.map Prod.fst).reverse ++ keys) fields values) := by
  induction members generalizing keys with
  | nil => exact .nil
  | cons m members ih =>
    rw [List.forall_mem_cons] at hspaced hfields hothers hnew
    obtain ⟨hfirst, honce⟩ := List.pairwise_cons.mp honce
    have hkeys : (List.map Prod.fst (m :: members)).reverse ++ keys =
        (members.map Prod.fst).reverse ++ m.1 :: keys := by simp
    rw [hkeys]
    refine .cons ?_ (ih hspaced.2 honce hfields.2 hothers.2 _ ?_)
    · by_cases hm : m.1 ∈ fields.map Field.name
      · have hfresh : m.1 ∉ keys := fun hmem => hnew.1 hmem hm
        exact fieldMember_yields hm hnames hfresh hspaced.1.between hfields.1
      · rw [Slots.filled_other hm]
        exact fieldMember_yields_other hm _ hspaced.1.between (hothers.1 hm)
    · intro m' hm' hmem
      rcases List.mem_cons.mp hmem with heq | hmem
      · exact heq ▸ hfirst m' hm' heq.symm
      · exact hnew.2 m' hm' hmem

/-! ## Records as arrays -/

/-- The parts of an array spell the fields of a record in their order, and fields without a part may
be missing and are. -/
def Positional (decoder : Decoder) : (fields : List Field) → Values fields → List (List Char) → Prop
  | fields, values, [] => Values.Forall (fun field value => field.default? = some value) fields values
  | field :: fields, (value, values), part :: parts =>
    (field.reader decoder).Yields part (some value) ∧ BeginsValue part ∧
      Positional decoder fields values parts
  | [], (), _ :: _ => False

theorem positional_nil {decoder : Decoder} {fields : List Field} {values : Values fields} :
    Positional decoder fields values [] ↔
      Values.Forall (fun field value => field.default? = some value) fields values := by
  cases fields <;> exact Iff.rfl

theorem missing_eq_ok {name : String} {total place : Nat} {fields : List Field}
    {values : Values fields}
    (h : Values.Forall (fun field value => field.default? = some value) fields values) :
    Values.missing name total fields place = .ok values := by
  induction fields generalizing place with
  | nil => rfl
  | cons field fields ih => rw [Values.missing, h.1, ih h.2]

/-- Fields that are missing at the end of the array. -/
theorem read_fields_close {decoder : Decoder} {name : String} {total place : Nat}
    {fields : List Field} {values : Values fields}
    (h : Values.Forall (fun field value => field.default? = some value) fields values)
    {blanks : List Char} (hb : Blank blanks) (rest : List Char) :
    (recordList decoder name total fields place).read (blanks ++ ']' :: rest) =
      some (values, rest) := by
  cases fields with
  | nil =>
    rw [recordList, listEnd, read_peek _ _ hb (by decide)]
    simp
  | cons field fields =>
    rw [recordList, read_peek _ _ hb (by decide), if_pos rfl, read_follow, read_anyChar,
      missing_eq_ok h]
    rfl

section

variable {bound : Nat} {name : String} {total : Nat} {field : Field} {fields : List Field}

/-- The first field of a record and those behind it. -/
theorem read_first_field {part : List Char} (hbegins : BeginsValue part) (s : List Char) :
    (recordList (decoder bound) name total (field :: fields) 0).read (part ++ s) =
      ((field.reader (decoder bound)).read (part ++ s)).bind fun (value, rest) =>
        ((recordList (decoder bound) name total fields 1).read rest).map fun (values, rest) =>
          ((value, values), rest) := by
  obtain ⟨blanks, c, t, hb, hc, hne, rfl⟩ := hbegins
  rw [List.append_assoc, List.cons_append, recordList, read_peek _ _ hb hc, if_neg hne, if_pos rfl,
    read_bind, PassesBlanks.field bound field hb]
  simp only [read_map]

/-- A field behind a comma and those behind it. -/
theorem read_next_field {blanks part : List Char} (hb : Blank blanks) (hbegins : BeginsValue part)
    {place : Nat} (hplace : place ≠ 0) (s : List Char) :
    (recordList (decoder bound) name total (field :: fields) place).read
        (blanks ++ ',' :: (part ++ s)) =
      ((field.reader (decoder bound)).read (part ++ s)).bind fun (value, rest) =>
        ((recordList (decoder bound) name total fields (place + 1)).read rest).map
          fun (values, rest) => ((value, values), rest) := by
  obtain ⟨blanks', c, t, hb', hc, hne, rfl⟩ := hbegins
  rw [List.append_assoc, List.cons_append, recordList, read_peek _ _ hb (by decide),
    if_neg (by decide), if_neg hplace, if_pos rfl, read_anyChar_andThen, read_peek _ _ hb' hc,
    if_neg hne, read_bind, PassesBlanks.field bound field hb']
  simp only [read_map]

end

theorem read_further_fields {bound : Nat} {name : String} {total : Nat} {fields : List Field}
    {values : Values fields} {parts : List (List Char)}
    (hparts : Positional (decoder bound) fields values parts) {text : List Char}
    (h : Further ']' parts text) {place : Nat} (hplace : place ≠ 0) (rest : List Char) :
    (recordList (decoder bound) name total fields place).read (text ++ rest) =
      some (values, rest) := by
  induction h generalizing fields place with
  | close hb =>
    rw [List.append_assoc, List.singleton_append]
    exact read_fields_close (positional_nil.mp hparts) hb rest
  | @part blanks part text parts hb h ih =>
    cases fields with
    | nil => cases hparts
    | cons field fields =>
      obtain ⟨value, values⟩ := values
      obtain ⟨hvalue, hbegins, hparts⟩ := hparts
      rw [List.append_assoc, List.cons_append, List.append_assoc,
        read_next_field hb hbegins hplace, hvalue _ (h.endsNumber (.inl rfl) rest)]
      simp [ih hparts]

theorem read_fields {bound : Nat} {name : String} {total : Nat} {fields : List Field}
    {values : Values fields} {parts : List (List Char)}
    (hparts : Positional (decoder bound) fields values parts) {text : List Char}
    (h : Inside ']' parts text) (rest : List Char) :
    (recordList (decoder bound) name total fields 0).read (text ++ rest) = some (values, rest) := by
  cases h with
  | empty hb =>
    rw [List.append_assoc, List.singleton_append]
    exact read_fields_close (positional_nil.mp hparts) hb rest
  | @parts part text parts h =>
    cases fields with
    | nil => cases hparts
    | cons field fields =>
      obtain ⟨value, values⟩ := values
      obtain ⟨hvalue, hbegins, hparts⟩ := hparts
      rw [List.append_assoc, read_first_field hbegins, hvalue _ (h.endsNumber (.inl rfl) rest)]
      simp [read_further_fields hparts h]

end Reader

/-! ## Every spelling is read -/

/-- What holds of the entries of a record holds of its fields. -/
theorem Values.forall_of_entries {Q : (field : Field) → field.Carrier → Prop} {fields : List Field}
    {values : Values fields} {R : Entry → Prop}
    (h : ∀ field value, field ∈ fields → R (field.entry value) → Q field value)
    (hentries : ∀ e ∈ Values.entries fields values, R e) : Values.Forall Q fields values := by
  induction fields with
  | nil => trivial
  | cons field fields ih =>
    obtain ⟨value, values⟩ := values
    rw [Values.entries, List.forall_mem_cons] at hentries
    exact ⟨h field value List.mem_cons_self hentries.1,
      ih (fun field value hfield => h field value (List.mem_cons_of_mem _ hfield)) hentries.2⟩

theorem Field.default_of_entry {field : Field} {value : field.Carrier}
    (h : (field.entry value).value = none) : field.default? = some value := by
  cases field with
  | required name shape => cases h
  | optional name shape => rw [Field.default?, show value = none from h]

theorem Field.name_entry (field : Field) (value : field.Carrier) :
    (field.entry value).name = field.name := by
  cases field <;> rfl

/-- A text is read as what a field holds if it spells that, or is null and the field is missing. -/
theorem Field.yields {field : Field} {value : field.Carrier} {bound : Nat} {t : List Char}
    (hbracketed : ∀ name shape, field = .optional name shape → shape.isBracketed = true)
    (hspells : ∀ v ∈ (field.entry value).value, Spells (field.entry value).shape v t)
    (hyields : ∀ v ∈ (field.entry value).value,
      (decoder bound (field.entry value).shape).Yields t (some v))
    (hnull : (field.entry value).value = none → NullText t) :
    (field.reader (decoder bound)).Yields t (some value) := by
  cases field with
  | required name shape => exact hyields value rfl
  | optional name shape =>
    cases value with
    | none => exact nullable_yields_none (hnull rfl)
    | some v =>
      obtain ⟨blanks, c, r, hb, hc, rfl⟩ :=
        (hspells v rfl).begins_of_isBracketed (hbracketed name shape rfl)
      exact nullable_yields_some (.decoder bound shape) hb hc (hyields v rfl)

theorem Values.within_entries {P : Double → Prop} {bound : Nat} {fields : List Field}
    {values : Values fields} (h : Values.Within P bound fields values) :
    ∀ e ∈ Values.entries fields values, ∀ v ∈ e.value, e.shape.Within P bound v := by
  induction fields with
  | nil => simp [Values.entries]
  | cons field fields ih =>
    obtain ⟨value, values⟩ := values
    rw [Values.entries, List.forall_mem_cons]
    refine ⟨?_, ih h.2⟩
    cases field with
    | required name shape =>
      intro v hv
      cases hv
      exact h.1
    | optional name shape => exact h.1

theorem Reader.read_enter {α : Type} {decoder : Decoder} {inside : Decoder → Reader α} (c : Char)
    (s : List Char) : (enter (some decoder) inside).read (c :: s) = (inside decoder).read s := by
  simp [enter]

/-- The parts of an array that spell the fields of a record are read as these. -/
theorem positional_of_spells {bound : Nat} {fields : List Field} {values : Values fields}
    {parts : List (List Char)} (hlength : parts.length ≤ fields.length)
    (hbracketed : ∀ name shape, .optional name shape ∈ fields → shape.isBracketed = true)
    (hspells : ∀ p ∈ (Values.entries fields values).zip parts, ∀ v ∈ p.1.value,
      Spells p.1.shape v p.2)
    (hyields : ∀ p ∈ (Values.entries fields values).zip parts, ∀ v ∈ p.1.value,
      (decoder bound p.1.shape).Yields p.2 (some v))
    (hnulls : ∀ p ∈ (Values.entries fields values).zip parts, p.1.value = none → NullText p.2)
    (hmissing : ∀ e ∈ (Values.entries fields values).drop parts.length, e.value = none) :
    Positional (decoder bound) fields values parts := by
  induction parts generalizing fields with
  | nil =>
    exact positional_nil.mpr
      (Values.forall_of_entries (fun _ _ _ => Field.default_of_entry) hmissing)
  | cons part parts ih =>
    cases fields with
    | nil => cases hlength
    | cons field fields =>
      obtain ⟨value, values⟩ := values
      simp only [Values.entries, List.zip_cons_cons, List.forall_mem_cons] at hspells hyields hnulls
      have hbegins : BeginsValue part := by
        cases hvalue : (field.entry value).value with
        | none =>
          obtain ⟨blanks, hb, rfl⟩ := hnulls.1 hvalue
          exact ⟨blanks, 'n', _, hb, by decide, by decide, rfl⟩
        | some v => exact (hspells.1 v hvalue).begins
      refine ⟨Field.yields ?_ hspells.1 hyields.1 hnulls.1, hbegins,
        ih (Nat.le_of_succ_le_succ hlength) ?_ hspells.2 hyields.2 hnulls.2 hmissing⟩
      · rintro name shape rfl
        exact hbracketed name shape List.mem_cons_self
      · exact fun name shape hmem => hbracketed name shape (List.mem_cons_of_mem _ hmem)

/-! ## Brackets -/

section

variable {s : Shape} {blanks inside : List Char} {bound : Nat}

/-- A variant is read as its payload is. -/
theorem tagged_yields {shape : Shape} {table : List (Variant s.Carrier)} {tag : String}
    {make : shape.Carrier → s.Carrier} {outcome : Option shape.Carrier} {m : Member}
    (hform : s.form = .variants table)
    (hfind : findVariant table tag = .ok (.data tag shape make)) (hb : Blank blanks)
    (hspaced : m.Spaced) (hkey : QuotedText tag m.key)
    (hvalue : (decoder bound shape).Yields m.value outcome) (h : Inside '\x7d' [m.text] inside) :
    (decoder (bound + 1) s).Yields (blanks ++ '\x7b' :: inside) (outcome.map make) := by
  cases h with
  | parts h =>
  cases h with
  | @close blanks' hb' =>
  intro rest _
  have hread := hvalue (blanks' ++ '\x7d' :: rest) (.append hb' (endsNumber_brace rest))
  obtain ⟨q, hq, htag⟩ := read_text_of_quoted hkey
  rw [decoder_eq, hform, Form.reader, variant]
  simp only [Member.text, hq, List.append_assoc, List.cons_append, List.nil_append]
  rw [read_peek _ _ hb (by decide), if_pos rfl, innerDecoder, read_enter,
    read_taggedVariant hfind hspaced.before (htag _), read_colon hspaced.between, hread]
  cases outcome with
  | none => rfl
  | some v =>
    simp only [Option.map_some, Option.bind_some]
    rw [read_symbol rest hb' (by decide)]
    rfl

/-- A list is read if its items are. -/
theorem list_yields {item : Shape} {make : List item.Carrier → s.Carrier}
    {parts : List (item.Carrier × List Char)} (hform : s.form = .list item make) (hb : Blank blanks)
    (hbegins : ∀ part ∈ parts, BeginsValue part.2)
    (hparts : ∀ part ∈ parts, (decoder bound item).Yields part.2 (some part.1))
    (h : Inside ']' (parts.map Prod.snd) inside) :
    (decoder (bound + 1) s).Yields (blanks ++ '[' :: inside) (some (make (parts.map Prod.fst))) := by
  intro rest _
  rw [decoder_eq, hform, Form.reader, read_map, Reader.list, List.append_assoc, List.cons_append,
    read_peek _ _ hb (by decide), if_pos rfl, innerDecoder, read_enter,
    read_items (.decoder bound item) hparts hbegins h]
  rfl

variable {name : String} {fields : List Field} {make : Values fields → s.Carrier}
  {values : Values fields}

/-- A record is read from its members if its fields are, and those without a member are missing. -/
theorem object_yields {members : List (String × Member)} (hform : s.form = .record name fields make)
    (hb : Blank blanks) (hspaced : ∀ m ∈ members, m.2.Spaced)
    (hkeys : ∀ m ∈ members, QuotedText m.1 m.2.key)
    (honce : members.Pairwise fun m m' => m.1 = m'.1 → m.1 ∉ fields.map Field.name)
    (hfields : ∀ m ∈ members, Values.Forall (fun field value => field.name = m.1 →
      (field.reader (decoder bound)).Yields m.2.value (some value)) fields values)
    (hmissing : Values.Forall (fun field value => field.name ∉ members.map Prod.fst →
      field.default? = some value) fields values)
    (hothers : ∀ m ∈ members, m.1 ∉ fields.map Field.name → WellFormed m.2.value)
    (h : Inside '\x7d' (members.map fun m => m.2.text) inside) :
    (decoder (bound + 1) s).Yields (blanks ++ '\x7b' :: inside) (some (make values)) := by
  have htakes := takes_fieldMembers (nodup_fieldNames hform) hspaced honce hfields hothers []
    (by simp)
  rw [Slots.filled_nil, List.append_nil] at htakes
  have hcomplete : Slots.complete fields
      (Slots.filled (members.map Prod.fst).reverse fields values) = .ok values :=
    Slots.complete_filled (by simpa only [List.mem_reverse] using hmissing)
  intro rest _
  rw [decoder_eq, hform, Form.reader, record, List.append_assoc, List.cons_append,
    read_peek _ _ hb (by decide), if_pos rfl, innerDecoder, read_enter, recordObject, read_follow,
    Reader.read_members htakes hspaced hkeys h]
  simp [hcomplete]

/-- A record is read from the array of its fields. -/
theorem array_yields {parts : List (List Char)} (hform : s.form = .record name fields make)
    (hb : Blank blanks) (hparts : Positional (decoder bound) fields values parts)
    (h : Inside ']' parts inside) :
    (decoder (bound + 1) s).Yields (blanks ++ '[' :: inside) (some (make values)) := by
  intro rest _
  rw [decoder_eq, hform, Form.reader, record, List.append_assoc, List.cons_append,
    read_peek _ _ hb (by decide), if_neg (by decide), if_pos rfl, innerDecoder, read_enter,
    read_map, read_fields hparts h]
  rfl

end

/-! ## All spellings -/

/-- Every text of a value is read as that value, if it is not nested too deep and its numbers come
back. -/
theorem Spells.yields {s : Shape} {v : s.Carrier} {t : List Char} (h : Spells s v t) {bound : Nat}
    (hwithin : s.Within Recovers bound v) : (decoder bound s).Yields t (some v) := by
  induction h generalizing bound with
  | @text s make t blanks q hform hb hq =>
    rw [decoder_eq, hform]
    exact ((quotedText_yields hq).passBlanks (.peek _ _) hb).map make
  | @number s make v blanks hform hb =>
    -- Payloads are the only shape that is written as a number.
    cases s <;> cases hform
    obtain ⟨outcome, hread, hverdict⟩ := faithful_scalar (innerDecoder bound) bound v .compact
    rw [hverdict.eq_some hwithin] at hread
    rw [decoder_eq]
    exact hread.passBlanks (.form _ _) hb
  | @unit s name value t hform ht =>
    rw [decoder_eq, hform]
    exact (unit_yields_of_null ht).map fun _ => value
  | @bare s table tag value blanks q hform hfind hb hq =>
    rw [decoder_eq, hform]
    exact (variant_yields_name hfind hq _).passBlanks (.peek _ _) hb
  | @tagged s shape table tag make v m blanks inside hform hfind hb hspaced hkey hvalue h ih =>
    have hagrees : (Form.variants table).Agrees s.toJson := hform ▸ s.agrees
    obtain ⟨inner, rfl, hinner⟩ := (hagrees _ (mem_of_findVariant hfind) _ _ v).mp hwithin
    exact tagged_yields hform hfind hb hspaced hkey (ih hinner) h
  | @list s item make parts blanks inside hform hb hparts h ih =>
    have hagrees : (Form.list item make).Agrees s.toJson := hform ▸ s.agrees
    obtain ⟨inner, rfl, hinner⟩ := (hagrees _ _ _).mp hwithin
    exact list_yields hform hb (fun part hpart => (hparts part hpart).begins)
      (fun part hpart => ih part hpart (hinner part.1 (List.mem_map_of_mem hpart))) h
  | @object s name fields make values members blanks inside hform hb hspaced hkeys honce hvalues
      hnulls hmissing hothers h ih =>
    have hagrees : (Form.record name fields make).Agrees s.toJson := hform ▸ s.agrees
    obtain ⟨inner, rfl, hinner⟩ := (hagrees _ _ values).mp hwithin
    have hentries := Values.within_entries hinner
    refine object_yields hform hb hspaced hkeys honce ?_ ?_ hothers h
    · intro m hm
      refine Values.forall_of_entries ?_ (fun _ he => he)
      intro field value hfield he hname
      have hkey : m.1 = (field.entry value).name := by rw [Field.name_entry, hname]
      refine Field.yields ?_ (hvalues _ he m hm hkey)
        (fun v hv => ih _ he m hm hkey v hv (hentries _ he v hv)) (hnulls _ he m hm hkey)
      rintro name shape rfl
      exact isBracketed_of_optional hform hfield
    · refine Values.forall_of_entries ?_ (fun _ he => he)
      intro field value _ he hkey
      refine Field.default_of_entry (hmissing _ he ?_)
      rwa [Field.name_entry]
  | @array s name fields make values parts blanks inside hform hb hlength hvalues hnulls hmissing h
      ih =>
    have hagrees : (Form.record name fields make).Agrees s.toJson := hform ▸ s.agrees
    obtain ⟨inner, rfl, hinner⟩ := (hagrees _ _ values).mp hwithin
    have hentries := Values.within_entries hinner
    refine array_yields hform hb ?_ h
    exact positional_of_spells hlength (fun _ _ => isBracketed_of_optional hform) hvalues
      (fun p hp v hv => ih p hp v hv (hentries p.1 (List.of_mem_zip hp).1 v hv)) hnulls hmissing

end SyntaxForest.Document
