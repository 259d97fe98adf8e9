import SyntaxForest.Proofs.Document.Nesting
import SyntaxForest.Proofs.Document.RoundTrip
import SyntaxForest.Proofs.Document.Sites

/-!
# Records are read strictly

A record that has a member twice, or lacks one that it needs, spoils the document it stands in, and
no other copy of the member is taken for it. A part that is not read makes the whole unreadable
(`Site.yields_none`), and what is not read are the member lists that `Tampered` makes of those the
encoder has: while a record is read, `Slots.has` says which of its fields are there already.
-/

namespace SyntaxForest

open Document

namespace Document

/-! ## Brackets -/

namespace Reader

variable {α σ : Type}

/-- A reader that enters a bracket reads nothing if it reads nothing inside. -/
theorem enter_yields_none {p : Reader α} (bound : Nat) (inside : Decoder → Reader α) {c : Char}
    {t : List Char}
    (hopen : ∀ s, p.read (c :: s) = (enter (innerDecoder bound) inside).read (c :: s))
    (h : ∀ inner rest, (inside (decoder inner)).read (t ++ rest) = none) :
    p.Yields (c :: t) none := by
  intro rest _
  rw [List.cons_append, hopen]
  cases bound with
  | zero => rfl
  | succ inner => simpa [enter, innerDecoder] using h inner rest

/-- The elements of an array read as if a comma stood before the first of them, too. -/
theorem read_items_arrayText (item : Reader α) (sp : Spacing) {ts : List (List Char)}
    (hts : ∀ t ∈ ts, Bracketed t) (rest : List Char) :
    (items item).read ((sp.arrayText ts).tail ++ rest) =
      (iterate (listStep item) []).read
        (ts.flatMap sp.deeper.item ++ (sp.gap ++ ']' :: rest)) := by
  cases ts with
  | nil =>
    rw [List.flatMap_nil, List.nil_append, read_listStep_close item sp.blank_gap]
    show (items item).read (']' :: rest) = _
    rw [items, read_peek_cons _ _ (by decide)]
    simp
  | cons t ts =>
    obtain ⟨c, s, rfl, hblank, hne, -⟩ := (hts t List.mem_cons_self).head
    simp only [Spacing.arrayText, Spacing.item, List.flatMap_cons, List.tail_cons, List.cons_append,
      List.append_assoc, List.nil_append]
    rw [read_items_open item sp.deeper.blank_gap hblank hne]

/-- The members of an object read as if a comma stood before the first of them, too. -/
theorem read_members_objectText (member : σ → String → Reader σ) (sp : Spacing)
    (ms : List (String × List Char)) (state : σ) (rest : List Char) :
    (members member state).read ((sp.objectText ms).tail ++ rest) =
      (iterate (membersStep member) state).read
        (ms.flatMap sp.deeper.member ++ (sp.gap ++ '\x7d' :: rest)) := by
  cases ms with
  | nil =>
    rw [List.flatMap_nil, List.nil_append, read_membersStep_close member sp.blank_gap]
    show (members member state).read ('\x7d' :: rest) = _
    rw [members, read_peek_cons _ _ (by decide)]
    simp
  | cons m ms =>
    simp only [Spacing.objectText, Spacing.member, List.flatMap_cons, List.tail_cons,
      List.cons_append, List.append_assoc, List.nil_append]
    rw [read_members_open member sp.deeper.blank_gap state (read_text m.1 _)]

/-! ## Lists around a part -/

/-- An element behind a comma is read, and then the further ones. -/
theorem read_listStep_item {item : Reader α} (sp : Spacing) {t tail : List Char}
    {outcome : Option α} (ht : Bracketed t) (h : item.Yields t outcome) (htail : EndsNumber tail)
    (before : List α) :
    (iterate (listStep item) before).read (sp.item t ++ tail) =
      outcome.bind fun a => (iterate (listStep item) (a :: before)).read tail := by
  obtain ⟨c, s, rfl, hblank, hne, -⟩ := ht.head
  have hitem := h tail htail
  simp only [Spacing.item, List.cons_append, List.append_assoc] at hitem ⊢
  rw [← List.nil_append (',' :: _), read_listStep_comma item Blank.nil sp.blank_gap hblank hne,
    read_bind, hitem]
  cases outcome <;> rfl

/-- Elements that are read or not leave the loop with some elements or stop it, whatever stands
behind them. -/
theorem read_intact_items {item : Reader α} (sp : Spacing) {ts : List (List Char)}
    (hts : ∀ t ∈ ts, Bracketed t ∧ ∃ outcome, item.Yields t outcome) (before : List α) :
    ∃ outcome : Option (List α), ∀ tail, EndsNumber tail →
      (iterate (listStep item) before).read (ts.flatMap sp.item ++ tail) =
        outcome.bind fun before => (iterate (listStep item) before).read tail := by
  induction ts generalizing before with
  | nil => exact ⟨some before, fun tail _ => rfl⟩
  | cons t ts ih =>
    rw [List.forall_mem_cons] at hts
    obtain ⟨ht, first, hfirst⟩ := hts.1
    have hread (tail : List Char) (htail : EndsNumber tail) :=
      read_listStep_item sp ht hfirst (sp.endsNumber_items ts htail) before
    simp only [List.flatMap_cons, List.append_assoc]
    cases first with
    | none => exact ⟨none, hread⟩
    | some a =>
      obtain ⟨outcome, hrest⟩ := ih hts.2 (a :: before)
      exact ⟨outcome, fun tail htail => (hread tail htail).trans (hrest tail htail)⟩

end Reader

/-- A list with an element that is not read is not read. -/
theorem list_yields_none {s item : Shape} {make : List item.Carrier → s.Carrier} {sp : Spacing}
    {before after : List (List Char)} {t : List Char} (hform : s.form = .list item make)
    (hbefore : ∀ u ∈ before, ∀ bound, ∃ outcome, (decoder bound item).Yields u outcome)
    (hbracketed : ∀ u ∈ before ++ t :: after, Bracketed u)
    (h : ∀ bound, (decoder bound item).Yields t none) (bound : Nat) :
    (decoder bound s).Yields (sp.arrayText (before ++ t :: after)) none := by
  rw [decoder_eq, hform]
  suffices hlist : (Reader.list (innerDecoder bound) item).Yields
      (sp.arrayText (before ++ t :: after)) none from hlist.map make
  obtain ⟨text, htext⟩ : ∃ text, sp.arrayText (before ++ t :: after) = '[' :: text := by
    cases before <;> exact ⟨_, rfl⟩
  rw [htext]
  refine Reader.enter_yields_none bound (fun decoder => Reader.items (decoder item)) ?_ ?_
  · intro s
    rw [Reader.list, Reader.read_peek_cons _ _ (by decide), if_pos rfl]
  · intro inner rest
    have hopen := Reader.read_items_arrayText (decoder inner item) sp hbracketed rest
    rw [htext, List.tail_cons] at hopen
    obtain ⟨outcome, hread⟩ := Reader.read_intact_items sp.deeper
      (fun u hu => ⟨hbracketed u (by simp [hu]), hbefore u hu inner⟩) []
    have hclose := sp.endsNumber_gap (endsNumber_bracket rest)
    show (Reader.items (decoder inner item)).read (text ++ rest) = none
    rw [hopen, List.flatMap_append, List.append_assoc,
      hread _ (sp.deeper.endsNumber_items (t :: after) hclose)]
    cases outcome with
    | none => rfl
    | some elements =>
      rw [Option.bind_some, List.flatMap_cons, List.append_assoc,
        Reader.read_listStep_item sp.deeper (hbracketed t (by simp)) (h inner)
          (sp.deeper.endsNumber_items after hclose)]
      rfl

/-! ## Variants around a part -/

/-- A variant whose payload is not read is not read. -/
theorem variant_yields_none {s shape : Shape} {table : List (Variant s.Carrier)} {tag : String}
    {make : shape.Carrier → s.Carrier} {sp : Spacing} {t : List Char}
    (hform : s.form = .variants table)
    (hfind : Reader.findVariant table tag = .ok (.data tag shape make))
    (h : ∀ bound, (decoder bound shape).Yields t none) (bound : Nat) :
    (decoder bound s).Yields (sp.objectText [(tag, t)]) none := by
  rw [decoder_eq, hform]
  refine Reader.enter_yields_none bound (fun decoder => Reader.taggedVariant decoder table) ?_ ?_
  · intro s
    rw [Form.reader, Reader.variant, Reader.read_peek_cons _ _ (by decide), if_pos rfl]
  · intro inner rest
    have hpayload := h inner _ (sp.endsNumber_gap (endsNumber_brace rest))
    simp only [Spacing.member, List.flatMap_cons, List.flatMap_nil, List.tail_cons,
      List.append_assoc, List.cons_append, List.nil_append]
    rw [Reader.read_taggedVariant hfind sp.deeper.blank_gap (Reader.read_text tag _),
      Reader.read_colon_andThen (.decoder inner shape), hpayload]
    rfl

/-! ## Which fields of a record are there -/

/-- Whether the field of a name has been read. -/
def Slots.has : (fields : List Field) → Slots fields → String → Bool
  | [], (), _ => false
  | field :: fields, (slot, slots), k =>
    if field.name = k then slot.isSome else has fields slots k

theorem Slots.has_empty (fields : List Field) (k : String) :
    Slots.has fields (.empty fields) k = false := by
  induction fields with
  | nil => rfl
  | cons field fields ih =>
    rw [Slots.empty, Slots.has, ih]
    simp

/-- A field that must not be missing is missed. -/
theorem Slots.complete_of_not_has {fields : List Field} {k : String} {shape : Shape}
    (hnames : (fields.map Field.name).Nodup) (hfield : .required k shape ∈ fields)
    {slots : Slots fields} (h : Slots.has fields slots k = false) :
    (Slots.complete fields slots).toOption = none := by
  induction fields with
  | nil => cases hfield
  | cons field fields ih =>
    obtain ⟨slot, slots⟩ := slots
    obtain ⟨hnew, hnames⟩ := List.nodup_cons.mp hnames
    rw [Slots.complete_cons]
    rw [Slots.has] at h
    rcases List.mem_cons.mp hfield with rfl | hfield
    · have hslot : slot = none := by simpa [Field.name] using h
      rw [hslot]
      rfl
    · have hne : field.name ≠ k := by
        rintro rfl
        exact hnew (List.mem_map.mpr ⟨_, hfield, rfl⟩)
      rw [if_neg hne] at h
      rw [ih hnames hfield h]
      cases slot.or field.default? <;> rfl

namespace Reader

/-- A member of a field that is there already is not read, whatever its value. -/
theorem read_fieldMember_of_has {decoder : Decoder} {fields : List Field} {slots : Slots fields}
    {k : String} (h : Slots.has fields slots k = true) (s : List Char) :
    (fieldMember decoder fields slots k).read s = none := by
  induction fields with
  | nil => cases h
  | cons field fields ih =>
    obtain ⟨slot, slots⟩ := slots
    rw [Slots.has] at h
    by_cases hk : field.name = k
    · subst hk
      rw [if_pos rfl] at h
      obtain ⟨value, rfl⟩ := Option.isSome_iff_exists.mp h
      rw [fieldMember_again]
      rfl
    · rw [if_neg hk] at h
      rw [fieldMember_ne (Ne.symm hk), read_map, ih h]
      rfl

/-- A member of a field is read as its value is, if at all, and then the field is there. -/
theorem fieldMember_yields_has {fields : List Field} (hnames : (fields.map Field.name).Nodup)
    {field : Field} (hfield : field ∈ fields) {bound : Nat} {t : List Char}
    {outcome : Option field.Carrier} (h : (field.reader (decoder bound)).Yields t outcome)
    (slots : Slots fields) (sp : Spacing) :
    ∃ outcome', (fieldMember (decoder bound) fields slots field.name).Yields
        (sp.colon.toList ++ t) outcome' ∧
      (outcome = none → outcome' = none) ∧
      ∀ slots' ∈ outcome', ∀ k,
        Slots.has fields slots' k = (Slots.has fields slots k || k == field.name) := by
  induction fields with
  | nil => cases hfield
  | cons first fields ih =>
    obtain ⟨slot, slots⟩ := slots
    obtain ⟨hnew, hnames⟩ := List.nodup_cons.mp hnames
    rcases List.mem_cons.mp hfield with rfl | hfield
    · cases slot with
      | some value =>
        rw [fieldMember_again]
        exact ⟨none, .fail _, fun _ => rfl, by simp⟩
      | none =>
        rw [fieldMember_self]
        refine ⟨outcome.map fun value => (some value, slots), Yields.map ?_ _, ?_, ?_⟩
        · intro rest hr
          rw [List.append_assoc, read_colon_andThen (.field bound field), h rest hr]
        · rintro rfl
          rfl
        · rintro slots' hslots' k
          obtain ⟨value, -, rfl⟩ := Option.map_eq_some_iff.mp hslots'
          by_cases hk : k = field.name
          · simp [Slots.has, hk]
          · simp [Slots.has, hk, Ne.symm hk]
    · have hne : field.name ≠ first.name := by
        intro he
        exact hnew (he ▸ List.mem_map_of_mem hfield)
      obtain ⟨later, hyields, hnone, hhas⟩ := ih hnames hfield slots
      rw [fieldMember_ne hne]
      refine ⟨later.map (slot, ·), hyields.map _, ?_, ?_⟩
      · intro h
        rw [hnone h]
        rfl
      · rintro slots' hslots' k
        obtain ⟨slots', hlater, rfl⟩ := Option.map_eq_some_iff.mp hslots'
        by_cases hk : first.name = k
        · subst hk
          simp [Slots.has, Ne.symm hne]
        · simpa [Slots.has, hk] using hhas slots' hlater k

/-- A member behind a comma is read by its key, and then the further ones. -/
theorem read_membersStep_member {member : σ → String → Reader σ} (sp : Spacing)
    (m : String × List Char) (tail : List Char) (state : σ) :
    (iterate (membersStep member) state).read (sp.member m ++ tail) =
      ((member state m.1).bind fun state => iterate (membersStep member) state).read
        (sp.colon.toList ++ m.2 ++ tail) := by
  simp only [Spacing.member, List.cons_append, List.append_assoc]
  rw [← List.nil_append (',' :: _),
    read_membersStep_comma member Blank.nil sp.blank_gap state (read_text m.1 _)]

end Reader

/-- A member for a field of a record, whose value is read or not, whatever follows it. -/
def Intact (bound : Nat) (fields : List Field) (m : String × List Char) : Prop :=
  ∃ field ∈ fields, field.name = m.1 ∧
    ∃ outcome, (field.reader (decoder bound)).Yields m.2 outcome

/-- Members of a record leave the loop with their fields in the slots, or stop it, whatever stands
behind them. -/
theorem read_intact_members {fields : List Field} (hnames : (fields.map Field.name).Nodup)
    {bound : Nat} (sp : Spacing) {ms : List (String × List Char)}
    (hms : ∀ m ∈ ms, Intact bound fields m) (slots : Slots fields) :
    ∃ outcome : Option (Slots fields),
      (∀ tail, EndsNumber tail →
        (Reader.iterate (Reader.membersStep (Reader.fieldMember (decoder bound) fields)) slots).read
          (ms.flatMap sp.member ++ tail) = outcome.bind fun slots =>
        (Reader.iterate (Reader.membersStep (Reader.fieldMember (decoder bound) fields)) slots).read
          tail) ∧
      ∀ slots' ∈ outcome, ∀ k,
        Slots.has fields slots' k = (Slots.has fields slots k || (ms.map Prod.fst).contains k) := by
  induction ms generalizing slots with
  | nil => exact ⟨some slots, fun _ _ => rfl, by simp⟩
  | cons m ms ih =>
    rw [List.forall_mem_cons] at hms
    obtain ⟨⟨field, hfield, hname, value, hvalue⟩, hms⟩ := hms
    obtain ⟨first, hfirst, -, hhas⟩ :=
      Reader.fieldMember_yields_has hnames hfield hvalue slots sp
    rw [hname] at hfirst hhas
    simp only [List.flatMap_cons, List.append_assoc, Reader.read_membersStep_member,
      Reader.read_bind]
    cases first with
    | none =>
      refine ⟨none, fun tail htail => ?_, by simp⟩
      rw [← List.append_assoc, hfirst _ (sp.endsNumber_members ms htail)]
      rfl
    | some slots₁ =>
      obtain ⟨outcome, hread, hlater⟩ := ih hms slots₁
      refine ⟨outcome, fun tail htail => ?_, fun slots' hslots' k => ?_⟩
      · rw [← List.append_assoc, hfirst _ (sp.endsNumber_members ms htail)]
        exact hread tail htail
      · rw [hlater slots' hslots' k, hhas slots₁ rfl k]
        simp [Bool.or_assoc]

/-- A record is not read if its members are not, or leave it incomplete. -/
theorem record_yields_none {s : Shape} {name : String} {fields : List Field}
    {make : Values fields → s.Carrier} {sp : Spacing} {ms : List (String × List Char)}
    (hform : s.form = .record name fields make)
    (h : ∀ inner rest slots rest',
      (Reader.iterate (Reader.membersStep (Reader.fieldMember (decoder inner) fields))
        (Slots.empty fields)).read (ms.flatMap sp.deeper.member ++ (sp.gap ++ '\x7d' :: rest)) =
          some (slots, rest') → (Slots.complete fields slots).toOption = none) (bound : Nat) :
    (decoder bound s).Yields (sp.objectText ms) none := by
  rw [decoder_eq, hform]
  obtain ⟨text, htext⟩ : ∃ text, sp.objectText ms = '\x7b' :: text := by
    cases ms <;> exact ⟨_, rfl⟩
  rw [htext]
  refine Reader.enter_yields_none bound
    (fun decoder => Reader.recordObject decoder fields make) ?_ ?_
  · intro s
    rw [Form.reader, Reader.record, Reader.read_peek_cons _ _ (by decide), if_pos rfl]
  · intro inner rest
    have hopen := Reader.read_members_objectText (Reader.fieldMember (decoder inner) fields) sp ms
      (Slots.empty fields) rest
    rw [htext, List.tail_cons] at hopen
    show (Reader.recordObject (decoder inner) fields make).read (text ++ rest) = none
    rw [Reader.recordObject, Reader.read_follow, hopen]
    cases hread : (Reader.iterate (Reader.membersStep (Reader.fieldMember (decoder inner) fields))
        (Slots.empty fields)).read
          (ms.flatMap sp.deeper.member ++ (sp.gap ++ '\x7d' :: rest)) with
    | none => rfl
    | some result =>
      have hcomplete := h inner rest result.1 result.2 hread
      cases hslots : Slots.complete fields result.1 with
      | error e => simp [hslots]
      | ok values => simp [hslots, Except.toOption] at hcomplete

/-- A record one of whose fields is not read is not read. -/
theorem field_yields_none {s : Shape} {name : String} {fields : List Field}
    {make : Values fields → s.Carrier} {sp : Spacing} {before after : List (String × List Char)}
    {field : Field} {t : List Char} (hform : s.form = .record name fields make)
    (hbefore : ∀ m ∈ before, ∀ bound, Intact bound fields m) (hfield : field ∈ fields)
    (h : ∀ bound, (field.reader (decoder bound)).Yields t none) (bound : Nat) :
    (decoder bound s).Yields (sp.objectText (before ++ (field.name, t) :: after)) none := by
  have hnames := nodup_fieldNames hform
  refine record_yields_none hform (fun inner rest slots rest' hread => ?_) bound
  exfalso
  obtain ⟨outcome, hrun, -⟩ := read_intact_members hnames sp.deeper
    (fun m hm => hbefore m hm inner) (Slots.empty fields)
  have hclose := sp.endsNumber_gap (endsNumber_brace rest)
  rw [List.flatMap_append, List.append_assoc,
    hrun _ (sp.deeper.endsNumber_members ((field.name, t) :: after) hclose)] at hread
  cases outcome with
  | none => cases hread
  | some slots =>
    obtain ⟨outcome, hmember, hnone, -⟩ :=
      Reader.fieldMember_yields_has hnames hfield (h inner) slots sp.deeper
    rw [hnone rfl] at hmember
    rw [Option.bind_some, List.flatMap_cons, List.append_assoc, Reader.read_membersStep_member,
      Reader.read_bind, hmember _ (sp.deeper.endsNumber_members after hclose)] at hread
    cases hread

/-! ## Members that are repeated or lacking -/

/-- The fields of records that may be missing. -/
def optionalFields : List (String × String) :=
  [("Type", "dims"), ("Return", "value"), ("Declarator", "init"), ("IfStatement", "else_branch")]

/-- What becomes of the members of the record of a name: one of them stands there once more, further
behind and with any text for its value, or one that must not be missing is left out. -/
inductive Tampered (name : String) :
    List (String × List Char) → List (String × List Char) → Prop
  | repeated (before between after : List (String × List Char)) (k : String)
      (first second : List Char) :
      Tampered name (before ++ (k, first) :: (between ++ after))
        (before ++ (k, first) :: (between ++ (k, second) :: after))
  | lacking (before after : List (String × List Char)) {k : String} (value : List Char)
      (hrequired : (name, k) ∉ optionalFields) :
      Tampered name (before ++ (k, value) :: after) (before ++ after)

theorem mem_optionalFields {s : Shape} {name : String} {fields : List Field}
    {make : Values fields → s.Carrier} (hform : s.form = .record name fields make) {k : String}
    {shape : Shape} (h : .optional k shape ∈ fields) : (name, k) ∈ optionalFields := by
  cases s <;> cases hform <;> simp_all [optionalFields]

/-- A record with a member twice, or without one that it needs, is not read. -/
theorem tampered_yields_none {s : Shape} {name : String} {fields : List Field}
    {make : Values fields → s.Carrier} {sp : Spacing} {ms ms' : List (String × List Char)}
    (hform : s.form = .record name fields make) (hms : ∀ m ∈ ms, ∀ bound, Intact bound fields m)
    (hkeys : (ms.map Prod.fst).Nodup) (h : Tampered name ms ms') (bound : Nat) :
    (decoder bound s).Yields (sp.objectText ms') none := by
  have hnames := nodup_fieldNames hform
  refine record_yields_none hform (fun inner rest slots rest' hread => ?_) bound
  have hclose := sp.endsNumber_gap (endsNumber_brace rest)
  cases h with
  | repeated before between after k first second =>
    -- The loop gets as far as the second key, and there the field is found in its slot.
    exfalso
    have hintact : ∀ m ∈ before ++ (k, first) :: between, Intact inner fields m := by
      intro m hm
      refine hms m ?_ inner
      simp only [List.mem_append, List.mem_cons] at hm ⊢
      grind
    obtain ⟨outcome, hrun, hhas⟩ :=
      read_intact_members hnames sp.deeper hintact (Slots.empty fields)
    have hsplit : before ++ (k, first) :: (between ++ (k, second) :: after) =
        (before ++ (k, first) :: between) ++ (k, second) :: after := by simp
    rw [hsplit, List.flatMap_append, List.append_assoc,
      hrun _ (sp.deeper.endsNumber_members ((k, second) :: after) hclose)] at hread
    cases outcome with
    | none => cases hread
    | some slots =>
      have hthere : Slots.has fields slots k = true := by
        rw [hhas slots rfl k]
        simp
      rw [Option.bind_some, List.flatMap_cons, List.append_assoc, Reader.read_membersStep_member,
        Reader.read_bind, Reader.read_fieldMember_of_has hthere] at hread
      cases hread
  | @lacking before after k value hrequired =>
    -- The loop gets to the closing brace, and there the slot of the field is empty.
    obtain ⟨field, hfield, rfl, -⟩ := hms (k, value) (by simp) inner
    have hintact : ∀ m ∈ before ++ after, Intact inner fields m := by
      intro m hm
      refine hms m ?_ inner
      simp only [List.mem_append, List.mem_cons] at hm ⊢
      grind
    have hnew : ((before ++ after).map Prod.fst).contains field.name = false := by
      rw [List.map_append, List.map_cons, List.nodup_middle, List.nodup_cons] at hkeys
      simpa using hkeys.1
    obtain ⟨outcome, hrun, hhas⟩ :=
      read_intact_members hnames sp.deeper hintact (Slots.empty fields)
    rw [hrun _ hclose] at hread
    cases outcome with
    | none => cases hread
    | some slots₁ =>
      rw [Option.bind_some, Reader.read_membersStep_close _ sp.blank_gap] at hread
      cases hread
      have hmissing : Slots.has fields slots field.name = false := by
        rw [hhas slots rfl, Slots.has_empty, hnew]
        rfl
      cases field with
      | required k shape => exact Slots.complete_of_not_has hnames hfield hmissing
      | optional k shape => exact absurd (mem_optionalFields hform hfield) hrequired

/-! ## A part that is not read -/

theorem Field.yields_none {field : Field} {bound : Nat} {t : List Char} (ht : Bracketed t)
    (h : (decoder bound field.shape).Yields t none) :
    (field.reader (decoder bound)).Yields t none := by
  cases field with
  | required k shape => exact h
  | optional k shape =>
    obtain ⟨c, s, rfl, hblank, -, hne⟩ := ht.head
    intro rest hr
    have hread : (decoder bound shape).read (c :: s ++ rest) = none := h rest hr
    show (Reader.nullable (decoder bound shape)).read (c :: (s ++ rest)) = none
    rw [Reader.nullable, Reader.read_peek_cons _ _ hblank, if_neg hne, Reader.read_map,
      ← List.cons_append, hread]
    rfl

theorem EncodesFields.intact {fields : List Field} {values : Values fields}
    {ms : List (String × Json)} (h : EncodesFields fields values ms) (sp : Spacing) :
    ∀ m ∈ Json.memberTexts sp ms, ∀ bound, Intact bound fields m := by
  intro m hm bound
  obtain ⟨member, hmember, rfl⟩ := List.mem_map.mp hm
  obtain ⟨field, hfield, hname, -, value, hreads⟩ := h.mem member hmember
  obtain ⟨outcome, hyields, -⟩ := hreads bound sp
  exact ⟨field, hfield, hname, outcome, hyields⟩

namespace Site

variable {s s' : Shape} {j : Json} {ms : List (String × Json)} {sp sp' : Spacing}
  {plug : List Char → List Char}

/-- A value is not read if a text that is not read stands in the place of a part of it. -/
theorem yields_none (h : Site s j sp s' (.object ms) sp' plug) (hj : ∃ v, Encodes s v j)
    {t : List Char} (ht : Bracketed t) (hread : ∀ bound, (decoder bound s').Yields t none) :
    ∀ bound, (decoder bound s).Yields (plug t) none := by
  generalize hpart : Json.object ms = part at h
  induction h with
  | here s j sp => exact hread
  | @item s item s' make j j' sp sp' plug before after hform h ih =>
    obtain ⟨v, hv⟩ := hj
    have hitems := hv.items hform
    have hchars {items : List Json} (hsub : ∀ i ∈ items, i ∈ before ++ j :: after) :
        ∀ u ∈ Json.itemTexts sp.deeper items, Bracketed u := by
      intro u hu
      obtain ⟨i, hi, rfl⟩ := List.mem_map.mp hu
      obtain ⟨r, hr⟩ := (hitems i (hsub i hi)).1.chars sp.deeper
      exact ⟨_, r, hr, .inr rfl⟩
    refine list_yields_none hform ?_ ?_ (ih (hitems j (by simp)).2 hread hpart)
    · intro u hu bound
      obtain ⟨i, hi, rfl⟩ := List.mem_map.mp hu
      obtain ⟨v, hv⟩ := (hitems i (by simp [hi])).2
      obtain ⟨outcome, hyields, -⟩ := hv.reads bound sp.deeper
      exact ⟨outcome, hyields⟩
    · intro u hu
      rcases List.mem_append.mp hu with hu | hu
      · exact hchars (fun i hi => by simp [hi]) u hu
      · rcases List.mem_cons.mp hu with rfl | hu
        · exact h.bracketed ht
        · exact hchars (fun i hi => by simp [hi]) u hu
  | payload hform hfind h ih =>
    obtain ⟨v, hv⟩ := hj
    exact variant_yields_none hform hfind (ih (hv.payload hform hfind) hread hpart)
  | @field s s' name fields make field j j' sp sp' plug before after hform hfield h ih =>
    obtain ⟨v, hv⟩ := hj
    obtain ⟨values, hfields⟩ := hv.fields hform
    have hne : j ≠ .null := by
      rintro rfl
      cases hpart.trans h.null
    have hpart := ih (hfields.encodes_field (nodup_fieldNames hform) hfield (by simp) hne) hread
      hpart
    refine field_yields_none hform ?_ hfield fun bound => Field.yields_none (h.bracketed ht)
      (hpart bound)
    intro m hm
    exact hfields.intact sp.deeper m (by simp_all [Json.memberTexts])

end Site

end Document

namespace Forest

/-- Reading a document in which a record has one of its members twice, or lacks one that it needs,
finds a fault, wherever in the forest the record stands and whatever else is wrong with the
forest. -/
theorem parse_tampered {forest : Forest} {s : Shape} {name : String} {fields : List Field}
    {make : Values fields → s.Carrier} {ms : List (String × Json)} {sp : Spacing}
    {plug : List Char → List Char} {ms' : List (String × List Char)}
    (hsite : Site (.list .node) forest.document (.indented 0) s (.object ms) sp plug)
    (hform : s.form = .record name fields make)
    (htampered : Tampered name (Json.memberTexts sp.deeper ms) ms') :
    dump forest = String.ofList (plug (sp.objectText (Json.memberTexts sp.deeper ms))) ∧
    ∃ fault, parse (String.ofList (plug (sp.objectText ms'))) = .error (.malformed fault) := by
  refine ⟨?_, ?_⟩
  · rw [← Json.chars_object_eq, ← hsite.chars_eq, ← dump_toList, String.ofList_toList]
  · obtain ⟨v, hv⟩ := hsite.encodes ⟨_, forest.encodes⟩
    obtain ⟨values, hfields⟩ := hv.fields hform
    have hkeys : ((Json.memberTexts sp.deeper ms).map Prod.fst).Nodup := by
      simpa [Json.memberTexts, Function.comp_def] using hfields.nodup_keys (nodup_fieldNames hform)
    have hnone := hsite.yields_none ⟨_, forest.encodes⟩ (.objectText sp ms')
      (tampered_yields_none hform (hfields.intact sp.deeper) hkeys htampered)
    apply parse_of_decode_error
    apply decode_toOption
    rw [String.toList_ofList]
    exact hnone maxDepth

/-- The constant that a statement returns, with its kind once more behind its payload and no value
at all, or without its payload. -/
theorem parse_tampered_constant :
    let one : Constant := ⟨.int, .int 1⟩
    let forest : Forest := [.expr (.ident "x"), .stmt (.ret (some (.const one)))]
    let around (t : List Char) : List Char :=
      (Spacing.indented 0).arrayText
        [(Node.expr (.ident "x")).toJson.chars (.indented 1),
          (Spacing.indented 1).objectText [("Statement", (Spacing.indented 2).objectText
            [("Return", (Spacing.indented 3).objectText [("value",
              (Spacing.indented 4).objectText [("Constant", t)])])])]]
    dump forest = String.ofList (around (one.toJson.chars (.indented 5))) ∧
    (∃ fault, parse (String.ofList (around ((Spacing.indented 5).objectText
      [("kind", "\"int\"".toList), ("value", ['1']), ("kind", [])]))) =
        .error (.malformed fault)) ∧
    ∃ fault, parse (String.ofList (around ((Spacing.indented 5).objectText
      [("kind", "\"int\"".toList)]))) = .error (.malformed fault) := by
  intro one forest around
  have value : Site .expr (Expr.const one).toJson (.indented 4) .constant one.toJson (.indented 5)
      fun t => (Spacing.indented 4).objectText [("Constant", t)] :=
    .payload rfl rfl (.here .constant one.toJson (.indented 5))
  have payload : Site .ret (Stmt.ret (some (.const one))).payload (.indented 3) .constant one.toJson
      (.indented 5) fun t => (Spacing.indented 3).objectText
        [("value", (Spacing.indented 4).objectText [("Constant", t)])] :=
    .field [] [] rfl (List.mem_singleton_self (Field.optional "value" .expr)) value
  have site : Site (.list .node) forest.document (.indented 0) .constant one.toJson (.indented 5)
      around :=
    .item [(Node.expr (.ident "x")).toJson] [] rfl (.payload rfl rfl (.payload rfl rfl payload))
  have members : Json.memberTexts (.indented 6)
      [("kind", .text one.kind.keyword), ("value", one.value.toJson)] =
      [("kind", "\"int\"".toList), ("value", ['1'])] := by decide
  have twice : Tampered "Constant" [("kind", "\"int\"".toList), ("value", ['1'])]
      [("kind", "\"int\"".toList), ("value", ['1']), ("kind", [])] :=
    .repeated [] [("value", ['1'])] [] "kind" "\"int\"".toList []
  have without : Tampered "Constant" [("kind", "\"int\"".toList), ("value", ['1'])]
      [("kind", "\"int\"".toList)] :=
    .lacking [("kind", "\"int\"".toList)] [] ['1'] (by decide)
  rw [← members] at twice without
  exact ⟨Json.chars_object_eq _ _ ▸ (parse_tampered site rfl twice).1,
    (parse_tampered site rfl twice).2, (parse_tampered site rfl without).2⟩

end Forest

end SyntaxForest
