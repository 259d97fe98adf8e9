import SyntaxForest.Proofs.Document.Lexing
import SyntaxForest.Proofs.Document.RoundTrip

/-!
# Documents that break off

A document that breaks off before its last bracket is never taken for a whole one. Every reader of a
part of a document keeps to `Reader.Lexes` wherever a part may begin and ends where another one may
(`LexesPart`); there is one lemma for each reader, and the decoder inherits it level by level. So
reading the front of a document either finds that it ends too early, or has found all that there is
to find in the whole of it, and the whole has a bracket behind that. Only where a number breaks off
may another fault come first.
-/

namespace SyntaxForest

open Document

namespace Document

variable {α σ : Type}

/-- A reader of a part of a document, which may begin where another has ended. -/
def Reader.LexesPart (p : Reader α) : Prop :=
  ∀ ⦃z : Zone⦄, z.Between → ∀ s, p.Lexes z s fun _ z' => z'.Between

namespace Reader

theorem LexesPart.map {β : Type} {p : Reader α} (h : p.LexesPart) (f : α → β) :
    (p.map f).LexesPart :=
  fun _ hz s => (h hz s).map fun _ _ hz' => hz'

theorem LexesPart.follow {β : Type} {p : Reader α} (h : p.LexesPart) {q : α → Next β}
    (hq : ∀ a, match q a with
      | .done _ => True
      | .refuse _ => True
      | .more r => r.LexesPart) : (p.follow q).LexesPart := by
  intro z hz s
  refine (h hz s).follow fun a rest z' _ hz' => ?_
  have hnext := hq a
  cases hqa : q a with
  | done b => exact hz'
  | refuse fault => trivial
  | more r =>
    rw [hqa] at hnext
    exact hnext hz' rest

theorem LexesPart.bind {β : Type} {p : Reader α} (h : p.LexesPart) {q : α → Reader β}
    (hq : ∀ a, (q a).LexesPart) : (p.bind q).LexesPart :=
  h.follow hq

theorem LexesPart.andThen {β : Type} {p : Reader α} (h : p.LexesPart) {q : Reader β}
    (hq : q.LexesPart) : (p.andThen q).LexesPart :=
  h.bind fun _ => hq

theorem LexesPart.of_gives {p : Reader α} (h : p.Gives fun _ => False) : p.LexesPart :=
  fun _ _ _ => .of_gives h

theorem lexes_mark_map {f : Char → α} {c : Char} (hc : Zone.isMark c = true) {atEnd : Fault}
    (hend : atEnd.category = .ending) {z : Zone} (hz : z.Between) {s : List Char} :
    ((anyChar atEnd).map f).Lexes z (c :: s) fun _ z' => z'.Between :=
  (lexes_mark hc hend hz).map fun _ _ h => .inl h

theorem lexesPart_colon : colon.LexesPart := fun _ hz _ => lexes_symbol rfl rfl hz

/-! ## Passing over a value -/

theorem lexesPart_skippedKey : skippedKey.LexesPart := by
  intro z hz s
  refine .peek rfl hz fun c rest z' hz' => ?_
  split
  · next hc =>
    subst hc
    refine lexes_quote_andThen rfl hz' fun s => lexes_skippedText.andThen ?_
    rintro - z' rest rfl
    exact lexesPart_colon Zone.between_outside rest
  · exact .fail _

theorem lexesPart_skipValue (frames : List Frame) : (skipValue frames).LexesPart := by
  intro z hz s
  refine .peek rfl hz fun c rest z' hz' => ?_
  repeat' split
  · exact (lexes_nullWord hz').map fun _ _ h => h
  · exact (lexes_trueWord hz').map fun _ _ h => h
  · exact (lexes_falseWord hz').map fun _ _ h => h
  · next hc =>
    subst hc
    exact .of_number hz' (.inl rfl)
      ((lexes_signed fun _ => lexes_skippedUnsigned).map fun _ _ h => h)
  · next hc => exact .of_number hz' (.inr hc) (lexes_skippedUnsigned.map fun _ _ h => h)
  · next hc =>
    subst hc
    refine .map (lexes_quote_andThen rfl hz' fun _ => lexes_skippedText) fun _ _ h => .inl h
  · next hc => exact lexes_mark_map (hc ▸ rfl) rfl hz'
  · next hc => exact lexes_mark_map (hc ▸ rfl) rfl hz'
  · exact .fail _

theorem lexesPart_skipStep (place : Place) : (skipStep place).LexesPart := by
  intro z hz s
  match place with
  | .value frames => exact lexesPart_skipValue frames hz s
  | .opened .array frames =>
    refine .peek rfl hz fun c rest z' hz' => ?_
    split
    · next hc => exact lexes_mark_map (hc ▸ rfl) rfl hz'
    · exact lexesPart_skipValue _ hz' _
  | .opened .object frames =>
    refine .peek rfl hz fun c rest z' hz' => ?_
    split
    · next hc => exact lexes_mark_map (hc ▸ rfl) rfl hz'
    · exact lexesPart_skippedKey.map _ hz' _
  | .behind .array frames =>
    refine .peek rfl hz fun c rest z' hz' => ?_
    repeat' split
    · next hc => exact lexes_mark_map (hc ▸ rfl) rfl hz'
    · next hc => exact lexes_mark_map (hc ▸ rfl) rfl hz'
    · exact .fail _
  | .behind .object frames =>
    refine .peek rfl hz fun c rest z' hz' => ?_
    repeat' split
    · next hc =>
      subst hc
      refine .map (lexes_mark_andThen rfl rfl hz' fun s => ?_) fun _ _ h => h
      exact lexesPart_skippedKey Zone.between_outside s
    · next hc => exact lexes_mark_map (hc ▸ rfl) rfl hz'
    · exact .fail _

theorem lexesPart_skip : skip.LexesPart := by
  intro z hz s
  refine .iterate (I := fun _ z => z.Between) (fun place z s hz => ?_) hz
  refine (lexesPart_skipStep place hz s).mono ?_
  rintro (next | ⟨⟩) z' hz' <;> exact hz'

/-! ## Lists and objects -/

/-- A list ends with its bracket. -/
theorem lexes_items {item : Reader α} (h : item.LexesPart) {z : Zone} (hz : z.Between)
    (s : List Char) : (items item).Lexes z s fun _ z' => z' = .outside := by
  refine .peek rfl hz fun c rest z' hz' => ?_
  split
  · next hc => exact (lexes_mark (hc ▸ rfl) rfl hz').map fun _ _ h => h
  refine (h hz' _).bind fun a z' rest hz' => ?_
  refine .iterate (I := fun _ z => z.Between) (fun before z s hz => ?_) hz'
  refine .peek rfl hz fun c rest z' hz' => ?_
  repeat' split
  · next hc => exact (lexes_mark (hc ▸ rfl) rfl hz').map fun _ _ h => h
  · next hc =>
    subst hc
    refine lexes_mark_andThen rfl rfl hz' fun s => ?_
    refine .peek rfl Zone.between_outside fun c rest z' hz' => ?_
    split
    · exact .fail _
    · exact (h hz' _).map fun _ _ hz'' => hz''
  · exact .fail _

theorem lexesPart_members {member : σ → String → Reader σ}
    (h : ∀ state k, (member state k).LexesPart) (state : σ) : (members member state).LexesPart := by
  intro z hz s
  refine .peek rfl hz fun c rest z' hz' => ?_
  repeat' split
  · next hc => exact lexes_mark_map (hc ▸ rfl) rfl hz'
  · next hc =>
    subst hc
    refine (lexes_quotedText rfl hz').bind fun k z' rest hz' => ?_
    refine (h state k hz' rest).bind fun state z' rest hz' => ?_
    refine .iterate (I := fun _ z => z.Between) (fun state z s hz => ?_) hz'
    refine .peek rfl hz fun c rest z' hz' => ?_
    repeat' split
    · next hc => exact (lexes_mark (hc ▸ rfl) rfl hz').map fun _ _ h => .inl h
    · next hc =>
      subst hc
      refine lexes_mark_andThen rfl rfl hz' fun s => ?_
      refine .peek rfl Zone.between_outside fun c rest z' hz' => ?_
      repeat' split
      · next hc =>
        subst hc
        refine (lexes_quotedText rfl hz').bind fun k z' rest hz' => ?_
        exact (h state k hz' rest).map fun _ _ hz'' => hz''
      · exact .fail _
      · exact .fail _
    · exact .fail _
  · exact .fail _

/-! ## Values -/

theorem lexesPart_misplaced (expected : Expected) : (misplaced expected : Reader α).LexesPart :=
  .of_gives (gives_misplaced expected)

theorem lexesPart_unit (expected : Expected) : (unit expected).LexesPart := by
  intro z hz s
  refine .peek rfl hz fun c rest z' hz' => ?_
  split
  · exact lexes_nullWord hz'
  · exact lexesPart_misplaced expected hz' _

theorem lexesPart_quotedText : quotedText.LexesPart := by
  intro z hz s
  refine .peek rfl hz fun c rest z' hz' => ?_
  split
  · next hc =>
    subst hc
    exact lexes_quotedText rfl hz'
  · exact lexesPart_misplaced .text hz' _

theorem lexesPart_nullable {p : Reader α} (h : p.LexesPart) : p.nullable.LexesPart := by
  intro z hz s
  refine .peek rfl hz fun c rest z' hz' => ?_
  split
  · exact (lexes_nullWord hz').map fun _ _ h => h
  · exact h.map some hz' _

end Reader

/-- A decoder of parts of a document. -/
def Decoder.LexesParts (decoder : Decoder) : Prop := ∀ s, (decoder s).LexesPart

namespace Reader

section

variable {decoder : Decoder} (hdecoder : decoder.LexesParts)
include hdecoder

theorem lexesPart_payload (variant : Variant α) : (payload decoder variant).LexesPart := by
  cases variant with
  | unit tag value => exact (lexesPart_colon.andThen (lexesPart_unit _)).map _
  | data tag shape make => exact (lexesPart_colon.andThen (hdecoder shape)).map _

theorem lexesPart_taggedVariant (table : List (Variant α)) :
    (taggedVariant decoder table).LexesPart := by
  have hclose : (symbol '\x7d' .endInObject .expectedValue).LexesPart :=
    fun _ hz _ => lexes_symbol rfl rfl hz
  refine LexesPart.bind (fun z hz s => ?_) fun a => hclose.map _
  refine .peek rfl hz fun c rest z' hz' => ?_
  repeat' split
  · next hc =>
    subst hc
    refine (lexes_quotedText rfl hz').follow fun tag rest z' _ hz' => ?_
    cases findVariant table tag with
    | error fault => trivial
    | ok variant => exact lexesPart_payload hdecoder variant hz' rest
  · exact .fail _
  · exact .fail _

/-! ## Records -/

theorem lexesPart_field (field : Field) : (field.reader decoder).LexesPart := by
  cases field with
  | required name shape => exact hdecoder shape
  | optional name shape => exact lexesPart_nullable (hdecoder shape)

theorem lexesPart_fieldMember (fields : List Field) (slots : Slots fields) (k : String) :
    (fieldMember decoder fields slots k).LexesPart := by
  induction fields with
  | nil => exact (lexesPart_colon.andThen lexesPart_skip).map _
  | cons field fields ih =>
    obtain ⟨slot, slots⟩ := slots
    by_cases hk : k = field.name
    · subst hk
      cases slot with
      | none =>
        rw [fieldMember_self]
        exact (lexesPart_colon.andThen (lexesPart_field hdecoder field)).map _
      | some value =>
        rw [fieldMember_again]
        exact .of_gives (.fail _)
    · rw [fieldMember_ne hk]
      exact (ih slots).map _

theorem lexesPart_recordObject (fields : List Field) (make : Values fields → α) :
    (recordObject decoder fields make).LexesPart := by
  refine (lexesPart_members (lexesPart_fieldMember hdecoder fields) _).follow fun slots => ?_
  cases slots.complete <;> trivial

omit hdecoder in
theorem lexesPart_listEnd : listEnd.LexesPart := by
  intro z hz s
  refine .peek rfl hz fun c rest z' hz' => ?_
  repeat' split
  · next hc => exact lexes_mark_map (hc ▸ rfl) rfl hz'
  · -- Behind a comma there is nothing that would be right.
    refine .of_gives (.andThen (.peek fun c => ?_))
    split <;> exact .fail _
  · exact .fail _

theorem lexesPart_recordList (name : String) (total : Nat) (fields : List Field) (place : Nat) :
    (recordList decoder name total fields place).LexesPart := by
  induction fields generalizing place with
  | nil => exact lexesPart_listEnd
  | cons field fields ih =>
    have helement : ((field.reader decoder).bind fun value =>
        (recordList decoder name total fields (place + 1)).map fun values =>
          ((value, values) : Values (field :: fields))).LexesPart :=
      (lexesPart_field hdecoder field).bind fun value => (ih (place + 1)).map _
    intro z hz s
    rw [recordList]
    refine .peek rfl hz fun c rest z' hz' => ?_
    split
    · next hc =>
      subst hc
      refine (lexes_mark rfl rfl hz').follow fun _ rest z' _ hz' => ?_
      cases Values.missing name total (field :: fields) place with
      | error fault => trivial
      | ok values => exact .inl hz'
    split
    · exact helement hz' _
    split
    · next hc =>
      subst hc
      refine lexes_mark_andThen rfl rfl hz' fun s => ?_
      refine .peek rfl Zone.between_outside fun c rest z' hz' => ?_
      split
      · exact .fail _
      · exact helement hz' _
    · exact .fail _

end

/-! ## What may open a bracket -/

variable {inner : Option Decoder} (hinner : ∀ decoder ∈ inner, decoder.LexesParts)
include hinner

/-- What stands inside a bracket is read behind it, if another level is allowed. -/
theorem lexes_enter {inside : Decoder → Reader α} {Y : α → Zone → Prop}
    (h : ∀ decoder : Decoder, decoder.LexesParts → ∀ s, (inside decoder).Lexes .outside s Y)
    {c : Char} (hc : Zone.isMark c = true) {z : Zone} (hz : z.Between) {s : List Char} :
    (enter inner inside).Lexes z (c :: s) Y := by
  cases inner with
  | none => exact .fail _
  | some decoder => exact lexes_mark_andThen hc rfl hz (h decoder (hinner decoder rfl))

theorem lexesPart_anyValue : (anyValue inner).LexesPart := by
  intro z hz s
  refine .peek rfl hz fun c rest z' hz' => ?_
  repeat' split
  · exact (lexes_nullWord hz').map fun _ _ h => h
  · exact (lexes_trueWord hz').map fun _ _ h => h
  · exact (lexes_falseWord hz').map fun _ _ h => h
  · next hc => exact (lexes_number hz' (by simpa using hc)).map fun _ _ h => h
  · next hc =>
    subst hc
    exact (lexes_quotedText rfl hz').map fun _ _ h => h
  · next hc =>
    subst hc
    refine .map (lexes_enter hinner (fun decoder hdecoder s => ?_) rfl hz') fun _ _ h => .inl h
    exact lexes_items (hdecoder .any) Zone.between_outside s
  · next hc =>
    subst hc
    refine .map (lexes_enter hinner (fun decoder hdecoder s => ?_) rfl hz') fun _ _ h => h
    exact lexesPart_members
      (fun _ _ => (lexesPart_colon.andThen (hdecoder .any)).map _) () Zone.between_outside s
  · exact .fail _

theorem lexesPart_variant (table : List (Variant α)) : (variant inner table).LexesPart := by
  intro z hz s
  refine .peek rfl hz fun c rest z' hz' => ?_
  repeat' split
  · next hc =>
    subst hc
    exact lexes_enter hinner (fun decoder hdecoder =>
      lexesPart_taggedVariant hdecoder table Zone.between_outside) rfl hz'
  · next hc =>
    subst hc
    refine (lexes_quotedText rfl hz').follow fun tag rest z' _ hz' => ?_
    rcases findVariant table tag with fault | ⟨tag, value⟩ | ⟨tag, shape, make⟩
    · trivial
    · exact hz'
    · trivial
  · exact .fail _

theorem lexesPart_record (name : String) (fields : List Field) (make : Values fields → α) :
    (record inner name fields make).LexesPart := by
  intro z hz s
  refine .peek rfl hz fun c rest z' hz' => ?_
  repeat' split
  · next hc =>
    subst hc
    exact lexes_enter hinner (fun decoder hdecoder =>
      lexesPart_recordObject hdecoder fields make Zone.between_outside) rfl hz'
  · next hc =>
    subst hc
    exact lexes_enter hinner (fun decoder hdecoder =>
      (lexesPart_recordList hdecoder name _ fields 0).map make Zone.between_outside) rfl hz'
  · exact lexesPart_misplaced _ hz' _

/-- A list ends with its bracket. -/
theorem lexes_list (item : Shape) {z : Zone} (hz : z.Between) (s : List Char) :
    (list inner item).Lexes z s fun _ z' => z' = .outside := by
  refine .peek rfl hz fun c rest z' hz' => ?_
  split
  · next hc =>
    subst hc
    exact lexes_enter hinner (fun decoder hdecoder =>
      lexes_items (hdecoder item) Zone.between_outside) rfl hz'
  · exact .of_gives (gives_misplaced _)

end Reader

/-! ## Decoding -/

theorem Form.lexesPart {inner : Option Decoder} (hinner : ∀ decoder ∈ inner, decoder.LexesParts)
    (form : Form α) : (form.reader inner).LexesPart := by
  cases form with
  | text make => exact Reader.lexesPart_quotedText.map make
  | any make => exact (Reader.lexesPart_anyValue hinner).map make
  | scalar make =>
    refine (Reader.lexesPart_anyValue hinner).follow fun value => ?_
    cases value <;> trivial
  | unit name value => exact (Reader.lexesPart_unit _).map _
  | variants table => exact Reader.lexesPart_variant hinner table
  | record name fields make => exact Reader.lexesPart_record hinner name fields make
  | list item make =>
    intro z hz s
    exact (Reader.lexes_list hinner item hz s).map fun _ _ h => .inl h

theorem decoder_lexesParts (bound : Nat) : (decoder bound).LexesParts := by
  induction bound with
  | zero => exact fun s => Form.lexesPart (by simp) s.form
  | succ bound ih => exact fun s => Form.lexesPart (by simpa using ih) s.form

/-- A list ends with its bracket, whatever is in it. -/
theorem decoder_lexes_list (bound : Nat) (item : Shape) (s : List Char) :
    (decoder bound (.list item)).Lexes .outside s fun _ z => z = .outside := by
  have hinner : ∀ decoder ∈ innerDecoder bound, decoder.LexesParts := by
    cases bound with
    | zero => simp [innerDecoder]
    | succ bound => simpa [innerDecoder] using decoder_lexesParts bound
  rw [decoder_eq]
  exact (Reader.lexes_list hinner item Zone.between_outside s).map fun _ _ h => h

theorem read_of_decodeChars {s : Shape} {document : List Char} {v : s.Carrier}
    (h : decodeChars s document = .ok v) :
    ∃ rest, (decoder maxDepth s).read document = some (v, rest) ∧ Blank rest := by
  rw [decodeChars] at h
  split at h
  · cases h
  · next value rest hrun =>
    split at h
    · next hrest =>
      cases h
      refine ⟨rest, ?_, blank_of_skipBlanks (List.isEmpty_iff.mp hrest)⟩
      rw [Reader.read, hrun]
      rfl
    · cases h

/-- The front of a document that holds a list is no such document if the list goes on behind it; and
it ends too early, unless it breaks off in a number. -/
theorem decodeChars_front {item : Shape} {front back : List Char} {vs : List item.Carrier}
    (h : decodeChars (.list item) (front ++ back) = .ok vs) (hback : ']' ∈ back) :
    ∃ fault, decodeChars (.list item) front = .error fault ∧
      (Zone.outside.after front ≠ .number → fault.category = .ending) := by
  have hlexes := decoder_lexes_list maxDepth item front
  obtain ⟨behind, hwhole, hblank⟩ := read_of_decodeChars h
  -- What stands behind the list is blank, so the front does not hold all of the list.
  have hopen (v : List item.Carrier) (rest : List Char) :
      (decoder maxDepth (.list item)).read (front ++ back) ≠ some (v, rest ++ back) := by
    intro hread
    obtain ⟨-, rfl⟩ : vs = v ∧ behind = rest ++ back := by simpa [hwhole] using hread
    have hbracket := hblank ']' (List.mem_append_right _ hback)
    exact absurd hbracket (by decide)
  cases hfront : decodeChars (.list item) front with
  | ok v =>
    exfalso
    obtain ⟨rest, hread, hrest⟩ := read_of_decodeChars hfront
    obtain ⟨t, rfl, hzone⟩ := hlexes.splits v rest hread
    have houtside : Zone.outside.after (t ++ rest) ≠ .number := by
      rw [Zone.after_append, hzone, Zone.outside_after_blank hrest]
      decide
    exact hopen v rest (hlexes.read_more houtside hread back)
  | error fault =>
    refine ⟨fault, rfl, fun hzone => ?_⟩
    rcases hlexes.settled hzone with ⟨early, hrun, hending⟩ | hmore
    · have hearly : decodeChars (.list item) front = .error early := by rw [decodeChars, hrun]
      rw [hfront] at hearly
      cases hearly
      exact hending
    · have hread := hmore back
      rw [hwhole] at hread
      obtain ⟨⟨v, rest⟩, hfirst, -⟩ := Option.map_eq_some_iff.mp hread.symm
      exact absurd (by rw [hmore back, hfirst]; rfl) (hopen v rest)

end Document

namespace Forest

/-- The front of a document that describes a forest, up to some place before its last bracket, is
malformed; and it is found to end too early, unless it breaks off in a number or directly behind
one. -/
theorem parse_front {front back : String} {forest : Forest}
    (h : parse (front ++ back) = .ok forest) (hback : ']' ∈ back.toList) :
    ∃ fault, parse front = .error (.malformed fault) ∧
      (Zone.outside.after front.toList ≠ .number → fault.category = .ending) := by
  obtain ⟨hdecode, -⟩ := parse_eq_ok.mp h
  rw [decode, Document.decode, String.toList_append] at hdecode
  obtain ⟨fault, hfront, hending⟩ := decodeChars_front hdecode hback
  refine ⟨fault, ?_, hending⟩
  rw [parse, decode, Document.decode, hfront]

/-- A constant, broken off in the name of a member, which ends too early, and in its payload, which
need not. -/
theorem parse_front_constant :
    let forest : Forest := [.expr (.const ⟨.int, .int 12⟩)]
    let front := "[\n  \x7b\n    \"Expression\": \x7b\n      \"Constant\": \x7b\n        \"ki"
    let middle := "nd\": \"int\",\n        \"value\": 1"
    let back := "2\n      \x7d\n    \x7d\n  \x7d\n]"
    parse (front ++ middle ++ back) = .ok forest ∧
    (∃ fault, parse front = .error (.malformed fault) ∧ fault.category = .ending) ∧
    Zone.outside.after (front ++ middle).toList = .number ∧
    ∃ fault, parse (front ++ middle) = .error (.malformed fault) := by
  intro forest front middle back
  have hdump : front ++ middle ++ back = dump forest := by decide +kernel
  have hparse : parse (front ++ middle ++ back) = .ok forest := by
    rw [hdump]
    exact parse_eq_ok.mpr
      ⟨decode_dump_eq_ok (by decide +kernel) (by decide +kernel), rfl⟩
  have hsplit : front ++ middle ++ back = front ++ (middle ++ back) := String.append_assoc
  obtain ⟨fault, hfault, hending⟩ := parse_front (hsplit ▸ hparse) (by decide +kernel)
  obtain ⟨fault', hfault', -⟩ := parse_front hparse (by decide +kernel)
  exact ⟨hparse, ⟨fault, hfault, hending (by decide +kernel)⟩, by decide +kernel, fault', hfault'⟩

end Forest

end SyntaxForest
