import SyntaxForest.Proofs.Document.Forms

/-!
# Variants and records read back what they write

A variant is an object with one member, and a record one with a member for every field that is not
missing, in the order of the fields. While a record is read, the fields found so far stand in slots;
`Runs` follows the slots through the members, and is carried from the later fields of a record to
all of them one field at a time.
-/

namespace SyntaxForest.Document

variable {α σ : Type}

/-! ## Blanks before a value -/

theorem PassesBlanks.form (inner : Option Decoder) (form : Form α) :
    PassesBlanks (form.reader inner) := by
  cases form with
  | text make => exact (peek _ _).map _
  | any make => exact (peek _ _).map _
  | scalar make => exact (peek _ _).follow _
  | unit name value => exact (peek _ _).map _
  | variants table => exact peek _ _
  | record name fields make => exact peek _ _
  | list item make => exact (peek _ _).map _

theorem PassesBlanks.decoder (bound : Nat) (s : Shape) : PassesBlanks (decoder bound s) := by
  rw [decoder_eq]
  exact form _ _

theorem PassesBlanks.field (bound : Nat) (field : Field) :
    PassesBlanks (field.reader (Document.decoder bound)) := by
  cases field with
  | required name shape => exact decoder bound shape
  | optional name shape => exact peek _ _

/-- Behind a key, the colon is taken and then the value. -/
theorem Reader.read_colon {p : Reader α} {blanks : List Char} (hb : Blank blanks) (s : List Char) :
    (colon.andThen p).read (blanks ++ ':' :: s) = p.read s := by
  rw [read_andThen, colon, read_symbol s hb (by decide)]
  rfl

theorem Reader.read_colon_andThen {p : Reader α} (h : PassesBlanks p) (sp : Spacing)
    (s : List Char) : (colon.andThen p).read (sp.colon.toList ++ s) = p.read s := by
  have hcolon (t : List Char) : (colon.andThen p).read (':' :: t) = p.read t :=
    read_colon Blank.nil t
  cases sp with
  | compact => simp [Spacing.colon, hcolon]
  | indented level =>
    have hblank : Blank [' '] := by simp [Blank, isBlank]
    simpa [Spacing.colon, hcolon] using h hblank s

/-! ## Variants -/

namespace Reader

theorem read_key {k : String} {q s : List Char} (hkey : text.read q = some (k, s)) :
    key.read ('"' :: q) = some (k, s) := by
  simp [key, hkey]

/-- A variant is read from behind its brace: its name, its payload and the closing brace. -/
theorem read_taggedVariant {decoder : Decoder} {table : List (Variant α)} {tag : String}
    {shape : Shape} {make : shape.Carrier → α}
    (hfind : findVariant table tag = .ok (.data tag shape make)) {blanks q s : List Char}
    (hb : Blank blanks) (hkey : text.read q = some (tag, s)) :
    (taggedVariant decoder table).read (blanks ++ '"' :: q) =
      ((colon.andThen (decoder shape)).read s).bind fun (v, rest) =>
        ((symbol '\x7d' .endInObject .expectedValue).read rest).map fun (_, rest) =>
          (make v, rest) := by
  rw [taggedVariant, read_andClose, read_peek _ _ hb (by decide), if_pos rfl, read_follow,
    read_key hkey]
  simp only [Option.bind_some, hfind, payload, read_map]
  cases (colon.andThen (decoder shape)).read s <;> rfl

end Reader

theorem faithfulInside_variant {table : List (Variant α)} {tag : String} {shape : Shape}
    {make : shape.Carrier → α} (hfind : Reader.findVariant table tag = .ok (.data tag shape make))
    {v : shape.Carrier} {j : Json} (h : Reads shape v j) :
    FaithfulInside (fun decoder => Reader.taggedVariant decoder table) (make v)
      (.variant tag j) := by
  intro bound sp
  obtain ⟨outcome, hyields, hverdict⟩ := h bound sp.deeper
  refine ⟨outcome.map make, ?_, (hverdict.map make).congr
    (by simp [Json.variant, Json.within_object]) (by simp [Json.variant, Json.within_object])⟩
  intro rest
  have hpayload := hyields _ (endsNumber_members sp.deeper [] sp rest)
  simp only [Json.membersChars, List.nil_append] at hpayload
  simp only [Json.variant, Json.chars, Json.membersChars, List.tail_cons, List.append_assoc,
    List.cons_append, List.nil_append]
  rw [Reader.read_taggedVariant hfind sp.deeper.blank_gap (Reader.read_text tag _),
    Reader.read_colon_andThen (.decoder bound shape), hpayload]
  cases outcome with
  | none => rfl
  | some a =>
    simp only [Option.map_some, Option.bind_some]
    rw [Reader.read_symbol rest sp.blank_gap (by decide)]
    rfl

/-- Variants with a payload. -/
theorem reads_variant (s : Shape) (tag : String) {table : List (Variant s.Carrier)} {shape : Shape}
    {make : shape.Carrier → s.Carrier} (hform : s.form = .variants table)
    (hfind : Reader.findVariant table tag = .ok (.data tag shape make)) {v : shape.Carrier}
    {j : Json} (h : Reads shape v j) : Reads s (make v) (.variant tag j) := by
  intro bound
  rw [decoder_eq, hform]
  refine (faithfulInside_variant hfind h).enter (by simp [Json.variant, Json.depth])
    (fun sp => Json.chars_object sp _) ?_
  intro t
  rw [Form.reader, Reader.variant, Reader.read_peek_cons _ _ (by decide), if_pos rfl]

/-- Variants that are a name alone. -/
theorem reads_name {s : Shape} {table : List (Variant s.Carrier)} {tag : String}
    {value : s.Carrier} (hform : s.form = .variants table)
    (hfind : Reader.findVariant table tag = .ok (.unit tag value)) :
    Reads s value (.text tag) := by
  intro bound
  rw [decoder_eq, hform]
  exact faithful_name hfind _ bound

/-! ## Members -/

namespace Reader

variable (member : σ → String → Reader σ) {blanks blanks' : List Char}

theorem read_membersStep_close (hb : Blank blanks) (state : σ) (rest : List Char) :
    (iterate (membersStep member) state).read (blanks ++ '\x7d' :: rest) = some (state, rest) := by
  rw [read_iterate, membersStep, read_peek _ _ hb (by decide)]
  simp

/-- A member behind a comma is read, and then the further ones. -/
theorem read_membersStep_comma (hb : Blank blanks) (hb' : Blank blanks') (state : σ) {k : String}
    {q s : List Char} (hkey : text.read q = some (k, s)) :
    (iterate (membersStep member) state).read (blanks ++ ',' :: (blanks' ++ '"' :: q)) =
      ((member state k).bind fun state => iterate (membersStep member) state).read s := by
  rw [read_iterate, membersStep, read_peek _ _ hb (by decide)]
  simp only [Char.reduceEq, if_true, if_false, read_andThen, read_anyChar, Option.bind_some]
  rw [read_peek _ _ hb' (by decide)]
  simp only [if_true, read_map, read_bind, read_key hkey, Option.bind_some]
  cases (member state k).read s <;> rfl

/-- The first member reads as if a comma stood before it. -/
theorem read_members_open (hb : Blank blanks) (state : σ) {k : String} {q s : List Char}
    (hkey : text.read q = some (k, s)) :
    (members member state).read (blanks ++ '"' :: q) =
      (iterate (membersStep member) state).read (',' :: (blanks ++ '"' :: q)) := by
  have hcomma := read_membersStep_comma member Blank.nil hb state hkey
  rw [List.nil_append] at hcomma
  rw [hcomma, members, read_peek _ _ hb (by decide)]
  simp [read_key hkey]

end Reader

/-- Reading the members one after the other from a state ends in the given outcome. -/
inductive Runs (member : σ → String → Reader σ) (sp : Spacing) :
    σ → List (String × Json) → Option σ → Prop
  | done (state : σ) : Runs member sp state [] (some state)
  | stop {state : σ} {k : String} {j : Json} {ms : List (String × Json)}
      (h : (member state k).Yields (sp.colon.toList ++ j.chars sp) none) :
      Runs member sp state ((k, j) :: ms) none
  | step {state state' : σ} {k : String} {j : Json} {ms : List (String × Json)}
      {outcome : Option σ}
      (h : (member state k).Yields (sp.colon.toList ++ j.chars sp) (some state'))
      (hrest : Runs member sp state' ms outcome) :
      Runs member sp state ((k, j) :: ms) outcome

namespace Runs

variable {member : σ → String → Reader σ} {sp : Spacing} {state : σ} {ms : List (String × Json)}
  {outcome : Option σ}

/-- The further members of an object. -/
theorem read_iterate (h : Runs member sp state ms outcome) (close : Spacing) (rest : List Char) :
    (Reader.iterate (Reader.membersStep member) state).read
      (Json.membersChars sp ms ++ (close.gap ++ '\x7d' :: rest)) = outcome.map (·, rest) := by
  induction h with
  | done state =>
    simpa [Json.membersChars] using Reader.read_membersStep_close member close.blank_gap state rest
  | @stop state k j ms h =>
    have hmember := h _ (endsNumber_members sp ms close rest)
    simp only [Json.membersChars, List.cons_append, List.append_assoc] at hmember ⊢
    rw [← List.nil_append (',' :: _), Reader.read_membersStep_comma member Blank.nil sp.blank_gap
      state (Reader.read_text k _), Reader.read_bind, hmember]
    rfl
  | @step state state' k j ms outcome h hrest ih =>
    have hmember := h _ (endsNumber_members sp ms close rest)
    simp only [Json.membersChars, List.cons_append, List.append_assoc] at hmember ⊢
    rw [← List.nil_append (',' :: _), Reader.read_membersStep_comma member Blank.nil sp.blank_gap
      state (Reader.read_text k _), Reader.read_bind, hmember]
    exact ih

/-- All members of an object, from behind its brace. -/
theorem read_members (h : Runs member sp.deeper state ms outcome) (rest : List Char) :
    (Reader.members member state).read (((Json.object ms).chars sp).tail ++ rest) =
      outcome.map (·, rest) := by
  cases ms with
  | nil =>
    cases h
    show (Reader.members member state).read ('\x7d' :: rest) = _
    rw [Reader.members, Reader.read_peek_cons _ _ (by decide)]
    simp
  | cons m ms =>
    have hsteps := h.read_iterate sp rest
    simp only [Json.membersChars, Json.chars, List.tail_cons, List.cons_append, List.append_assoc,
      List.nil_append] at hsteps ⊢
    rw [Reader.read_members_open _ sp.deeper.blank_gap _ (Reader.read_text m.1 _), hsteps]

end Runs

/-! ## Records -/

/-- What a field holds is read back from `j`. -/
def FieldReads (field : Field) (value : field.Carrier) (j : Json) : Prop :=
  ∀ bound, Faithful (field.reader (decoder bound)) bound value j

theorem FieldReads.required {name : String} {shape : Shape} {v : shape.Carrier} {j : Json}
    (h : Reads shape v j) : FieldReads (.required name shape) v j := h

/-- A field that may be missing is written as null. -/
theorem FieldReads.null {name : String} {shape : Shape} :
    FieldReads (.optional name shape) none .null := by
  intro bound
  refine .of_yields rfl rfl ?_ bound
  intro sp rest _
  show (Reader.nullable (decoder bound shape)).read ('n' :: 'u' :: 'l' :: 'l' :: rest) = _
  rw [Reader.nullable, Reader.read_peek_cons _ _ (by decide), if_pos rfl, Reader.read_map,
    Reader.read_nullWord]
  rfl

/-- A value that starts with a bracket is not taken for null. -/
theorem FieldReads.present {name : String} {shape : Shape} {v : shape.Carrier} {j : Json}
    {c : Char} (hchars : ∀ sp, ∃ t, j.chars sp = c :: t) (hc : c = '[' ∨ c = '\x7b')
    (h : Reads shape v j) : FieldReads (.optional name shape) (some v) j := by
  intro bound sp
  obtain ⟨outcome, hyields, hverdict⟩ := h bound sp
  obtain ⟨t, ht⟩ := hchars sp
  refine ⟨outcome.map some, ?_, hverdict.map some⟩
  intro rest hr
  have hread := hyields rest hr
  have hn : c ≠ 'n' ∧ isBlank c = false := by rcases hc with rfl | rfl <;> decide
  rw [ht, List.cons_append] at hread ⊢
  -- One character is looked at to tell null from a value.
  show (Reader.nullable (decoder bound shape)).read (c :: (t ++ rest)) = _
  rw [Reader.nullable, Reader.read_peek_cons _ _ hn.2, if_neg hn.1, Reader.read_map, hread]
  cases outcome <;> rfl

/-- The members of a record: one for every field, in order, except for fields that are missing. -/
inductive Members : (fields : List Field) → Values fields → List (String × Json) → Prop
  | nil : Members [] () []
  | present {field : Field} {fields : List Field} {value : field.Carrier} {values : Values fields}
      {j : Json} {ms : List (String × Json)} (h : FieldReads field value j)
      (hrest : Members fields values ms) :
      Members (field :: fields) (value, values) ((field.name, j) :: ms)
  | absent {field : Field} {fields : List Field} {value : field.Carrier} {values : Values fields}
      {ms : List (String × Json)} (h : field.default? = some value)
      (hrest : Members fields values ms) : Members (field :: fields) (value, values) ms

theorem Members.mem_names {fields : List Field} {values : Values fields}
    {ms : List (String × Json)} (h : Members fields values ms) :
    ∀ m ∈ ms, m.1 ∈ fields.map Field.name := by
  induction h with
  | nil => simp
  | present h hrest ih => grind
  | absent h hrest ih => grind

theorem Reader.fieldMember_ne {decoder : Decoder} {field : Field} {fields : List Field} {k : String}
    (hk : k ≠ field.name) (slot : Option field.Carrier) (slots : Slots fields) :
    fieldMember decoder (field :: fields) (slot, slots) k =
      (fieldMember decoder fields slots k).map (slot, ·) :=
  if_neg (Ne.symm hk)

theorem Reader.fieldMember_self {decoder : Decoder} {field : Field} {fields : List Field}
    (slots : Slots fields) :
    fieldMember decoder (field :: fields) (none, slots) field.name =
      (colon.andThen (field.reader decoder)).map fun value => (some value, slots) :=
  if_pos rfl

/-- A run over the later fields of a record is one over all of them: the first slot stays. -/
theorem Runs.lift {decoder : Decoder} {field : Field} {fields : List Field} {sp : Spacing}
    {slots : Slots fields} {ms : List (String × Json)} {outcome : Option (Slots fields)}
    (h : Runs (Reader.fieldMember decoder fields) sp slots ms outcome)
    (hne : ∀ m ∈ ms, m.1 ≠ field.name) (slot : Option field.Carrier) :
    Runs (Reader.fieldMember decoder (field :: fields)) sp (slot, slots) ms
      (outcome.map (slot, ·)) := by
  induction h with
  | done slots => exact .done _
  | stop h =>
    rw [List.forall_mem_cons] at hne
    refine .stop ?_
    rw [Reader.fieldMember_ne hne.1]
    exact h.map _
  | step h hrest ih =>
    rw [List.forall_mem_cons] at hne
    refine .step ?_ (ih hne.2)
    rw [Reader.fieldMember_ne hne.1]
    exact h.map _

theorem Slots.complete_cons {field : Field} {fields : List Field} (slot : Option field.Carrier)
    (slots : Slots fields) :
    (Slots.complete (field :: fields) (slot, slots)).toOption =
      (slot.or field.default?).bind fun value =>
        (Slots.complete fields slots).toOption.map fun values => (value, values) := by
  rw [Slots.complete]
  cases slot.or field.default? with
  | none => rfl
  | some value => cases Slots.complete fields slots <;> rfl

/-- The members of a record fill the slots of its fields. -/
theorem Members.runs {fields : List Field} {values : Values fields} {ms : List (String × Json)}
    (h : Members fields values ms) (hnames : (fields.map Field.name).Nodup) (bound : Nat)
    (sp : Spacing) :
    ∃ outcome, Runs (Reader.fieldMember (decoder bound) fields) sp (Slots.empty fields) ms outcome ∧
      Verdict (outcome.bind fun slots => (Slots.complete fields slots).toOption) values
        (∀ m ∈ ms, m.2.Within Recovers bound) (∀ m ∈ ms, m.2.Within Finite bound) := by
  induction h with
  | nil => exact ⟨some (), .done (), fun _ => rfl, by simp⟩
  | @present field fields value values j ms h hrest ih =>
    obtain ⟨hnew, hnames⟩ := List.nodup_cons.mp hnames
    have hne : ∀ m ∈ ms, m.1 ≠ field.name := fun m hm he => hnew (he ▸ hrest.mem_names m hm)
    -- The first member fills the first slot, and no later one has its name.
    obtain ⟨outcome, hruns, hverdict⟩ := ih hnames
    obtain ⟨first, hyields, hverdict₁⟩ := h bound sp
    have hmember : (Reader.fieldMember (decoder bound) (field :: fields)
        (Slots.empty (field :: fields)) field.name).Yields (sp.colon.toList ++ j.chars sp)
        (first.map fun value => (some value, Slots.empty fields)) := by
      rw [Slots.empty, Reader.fieldMember_self]
      refine Reader.Yields.map ?_ _
      intro rest hr
      rw [List.append_assoc, Reader.read_colon_andThen (.field bound field), hyields rest hr]
    have hpair : Verdict _ (value, values) (∀ m ∈ (field.name, j) :: ms, m.2.Within Recovers bound)
        (∀ m ∈ (field.name, j) :: ms, m.2.Within Finite bound) :=
      (hverdict₁.pair hverdict Prod.mk).congr (by simp) (by simp)
    cases first with
    | none => exact ⟨none, .stop hmember, hpair⟩
    | some a =>
      refine ⟨_, .step hmember (hruns.lift hne (some a)), ?_⟩
      cases outcome with
      | none => exact hpair
      | some slots =>
        rw [Option.map_some, Option.bind_some, Slots.complete_cons (some a) slots]
        exact hpair
  | @absent field fields value values ms h hrest ih =>
    obtain ⟨hnew, hnames⟩ := List.nodup_cons.mp hnames
    have hne : ∀ m ∈ ms, m.1 ≠ field.name := fun m hm he => hnew (he ▸ hrest.mem_names m hm)
    -- The first slot stays empty until the record is complete, and then takes its default.
    obtain ⟨outcome, hruns, hverdict⟩ := ih hnames
    refine ⟨_, hruns.lift hne none, ?_⟩
    cases outcome with
    | none => exact hverdict.map (value, ·)
    | some slots =>
      rw [Option.map_some, Option.bind_some, Slots.complete_cons none slots, Option.none_or, h]
      exact hverdict.map (value, ·)

theorem faithfulInside_record {fields : List Field} {values : Values fields}
    {ms : List (String × Json)} (h : Members fields values ms)
    (hnames : (fields.map Field.name).Nodup) (make : Values fields → α) :
    FaithfulInside (fun decoder => Reader.recordObject decoder fields make) (make values)
      (.object ms) := by
  intro bound sp
  obtain ⟨outcome, hruns, hverdict⟩ := h.runs hnames bound sp.deeper
  refine ⟨_, ?_, (hverdict.map make).congr Json.within_object.symm Json.within_object.symm⟩
  intro rest
  show (Reader.recordObject (decoder bound) fields make).read _ = _
  rw [Reader.recordObject, Reader.read_follow, hruns.read_members rest]
  cases outcome with
  | none => rfl
  | some slots =>
    cases hslots : Slots.complete fields slots <;> simp [hslots, Except.toOption]

/-- The fields of a record have different names. -/
theorem nodup_fieldNames {s : Shape} {name : String} {fields : List Field}
    {make : Values fields → s.Carrier} (hform : s.form = .record name fields make) :
    (fields.map Field.name).Nodup := by
  cases s <;> cases hform <;> decide

/-- Records. -/
theorem reads_record (s : Shape) {name : String} {fields : List Field}
    {make : Values fields → s.Carrier} (hform : s.form = .record name fields make)
    {values : Values fields} {ms : List (String × Json)} (h : Members fields values ms) :
    Reads s (make values) (.object ms) := by
  intro bound
  rw [decoder_eq, hform]
  refine (faithfulInside_record h (nodup_fieldNames hform) make).enter (by simp [Json.depth])
    (fun sp => Json.chars_object sp _) ?_
  intro t
  rw [Form.reader, Reader.record, Reader.read_peek_cons _ _ (by decide), if_pos rfl]

end SyntaxForest.Document
