import SyntaxForest.Proofs.Document.Trees

/-!
# Nesting

A record may be written as an object or as an array, and a name as a text or as an object with one
member. None of these is nested less deep than the document value that the encoder has for the same
tree. So what the decoder accepts with a bound on the open brackets is encoded within that bound
(`decoder_gives`).

`Shape.toJson` is the encoder as one function on shapes, and `Form.Agrees` says how the nesting of a
value comes from the nesting of its parts, form by form. `Reader.Gives` carries what is known about
the parts through the readers.
-/

namespace SyntaxForest.Document

open Numeric

/-! ## The encoder on shapes -/

/-- The document value of what is read at a place of the shape. -/
def Shape.toJson : (s : Shape) → s.Carrier → Json
  | name, t => .text t
  | any, _ => .null
  | scalar, v => v.toJson
  | primitive, k => .text k.keyword
  | unaryOp, op => .text op.name
  | binaryOp, op => .text op.name
  | assignOp, op => .text op.name
  | kind, k => .text k.name
  | typeBase, base => base.toJson
  | type, ty => ty.toJson
  | constant, c => c.toJson
  | call, e | index, e | access, e | cast, e | unary, e | binary, e | assign, e => e.payload
  | brk, s | cont, s | ret, s => s.payload
  | block, ss => (Stmt.block ss).payload
  | exprStmt, s => s.payload
  | declarator, d => d.toJson
  | declaration, d => d.toJson
  | ite, s | loop, s => s.payload
  | parameter, p => p.toJson
  | header, h => h.toJson
  | function, f => f.toJson
  | struct, s => s.toJson
  | expr, e => e.toJson
  | stmt, s => s.toJson
  | node, n => n.toJson
  | list item, vs => .array (vs.map item.toJson)

variable {P : Double → Prop} {bound : Nat} {α β σ : Type}

/-- The document value of what is read at a place of the shape is within the bound. -/
def Shape.Within (P : Double → Prop) (bound : Nat) (s : Shape) (v : s.Carrier) : Prop :=
  (s.toJson v).Within P bound

/-- What a field holds is within the bound; a value that is missing always is. -/
def Field.Within (P : Double → Prop) (bound : Nat) : (field : Field) → field.Carrier → Prop
  | .required _ shape, v => shape.Within P bound v
  | .optional _ shape, value => ∀ v ∈ value, shape.Within P bound v

/-- What the fields of a record hold is within the bound. -/
def Values.Within (P : Double → Prop) (bound : Nat) : (fields : List Field) → Values fields → Prop
  | [], () => True
  | field :: fields, (value, values) => field.Within P bound value ∧ Within P bound fields values

namespace Json

@[simp] theorem within_null : null.Within P bound := by simp [Within, depth, floats]

@[simp] theorem within_text {t : String} : (text t).Within P bound := by
  simp [Within, depth, floats]

/-- An object takes one level, and what is in it the others. -/
@[simp] theorem within_object_iff {members : List (String × Json)} :
    (object members).Within P bound ↔
      ∃ inner, bound = inner + 1 ∧ ∀ member ∈ members, member.2.Within P inner := by
  cases bound with
  | zero => simp [Within, depth]
  | succ inner => simp [within_object]

@[simp] theorem within_array_iff {items : List Json} :
    (array items).Within P bound ↔
      ∃ inner, bound = inner + 1 ∧ ∀ item ∈ items, item.Within P inner := by
  cases bound with
  | zero => simp [Within, depth]
  | succ inner => simp [within_array]

@[simp] theorem within_variant {tag : String} {j : Json} :
    (variant tag j).Within P bound ↔ ∃ inner, bound = inner + 1 ∧ j.Within P inner := by
  simp [variant]

@[simp] theorem within_ofOption {j : Option Json} :
    (ofOption j).Within P bound ↔ ∀ i ∈ j, i.Within P bound := by
  cases j <;> simp [ofOption]

end Json

/-- How the nesting of a variant comes from the nesting of its payload. -/
def Variant.Agrees (toJson : α → Json) : Variant α → Prop
  | .unit _ value => ∀ P bound, (toJson value).Within P bound
  | .data _ shape make => ∀ P bound v,
    (toJson (make v)).Within P bound ↔ ∃ inner, bound = inner + 1 ∧ shape.Within P inner v

/-- How the nesting of a value comes from the nesting of its parts: brackets take one level. -/
def Form.Agrees (toJson : α → Json) : Form α → Prop
  | .text make => ∀ P bound t, (toJson (make t)).Within P bound
  | .any make => ∀ P bound v, (toJson (make v)).Within P bound
  | .scalar make => ∀ P bound v, (toJson (make v)).Within P bound ↔ v.toJson.Within P bound
  | .unit _ value => ∀ P bound, (toJson value).Within P bound
  | .variants table => ∀ variant ∈ table, variant.Agrees toJson
  | .record _ fields make => ∀ P bound values, (toJson (make values)).Within P bound ↔
    ∃ inner, bound = inner + 1 ∧ Values.Within P inner fields values
  | .list item make => ∀ P bound vs, (toJson (make vs)).Within P bound ↔
    ∃ inner, bound = inner + 1 ∧ ∀ v ∈ vs, item.Within P inner v

theorem Form.names_agrees {all : List α} {name : α → String} {toJson : α → Json}
    (h : ∀ a, toJson a = .text (name a)) : (Form.names all name).Agrees toJson := by
  intro variant hvariant
  obtain ⟨a, -, rfl⟩ := List.mem_map.mp hvariant
  intro P bound
  rw [h a]
  exact Json.within_text

/-- The encoder and the table of forms agree on every shape. -/
theorem Shape.agrees (s : Shape) : s.form.Agrees s.toJson := by
  cases s with
  | primitive | unaryOp | binaryOp | assignOp | kind => exact Form.names_agrees fun _ => rfl
  | name => exact fun _ _ _ => Json.within_text
  | any => exact fun _ _ _ => Json.within_null
  | scalar => exact fun _ _ _ => Iff.rfl
  | brk | cont => exact fun _ _ => Json.within_null
  | typeBase | expr | stmt | node =>
    simp [Form.Agrees, Shape.form, Variant.Agrees, Shape.Within, Shape.toJson, TypeBase.toJson,
      Expr.toJson, Stmt.toJson, Node.toJson, Expr.payload, Stmt.payload, Node.payload]
  | list item => simp [Form.Agrees, Shape.form, Shape.Within, Shape.toJson]
  | type =>
    rintro P bound ⟨base, dims, ⟨⟩⟩
    cases dims <;> simp [Values.Within, Field.Within, Shape.Within, Shape.toJson, Ty.toJson,
      Expr.dimsMember, Expr.toJsons_eq]
  | ite =>
    rintro P bound ⟨condition, thenBranch, elseBranch, ⟨⟩⟩
    cases elseBranch <;> simp [Values.Within, Field.Within, Shape.Within, Shape.toJson,
      Stmt.payload, Stmt.branchJson, Stmt.toJson]
  | _ =>
    simp [Form.Agrees, Shape.form, Values.Within, Field.Within, Shape.Within, Shape.toJson,
      Constant.toJson, Expr.payload, Expr.toJsons_eq, Expr.toJson, Stmt.payload, Stmt.toJsons_eq,
      Stmt.toJson, Declarator.toJson, Declaration.toJson, Parameter.toJson, Header.toJson,
      FunctionDecl.toJson, StructDecl.toJson]

/-! ## What a reader gives -/

namespace Reader

/-- Whatever the reader makes of a text is as `Q` demands. -/
def Gives (p : Reader α) (Q : α → Prop) : Prop := ∀ s a rest, p.read s = some (a, rest) → Q a

namespace Gives

variable {Q : α → Prop} {R : β → Prop}

theorem fail (fault : Fault) : (fail fault : Reader α).Gives Q := by
  intro s a rest h
  cases h

theorem of_forall {p : Reader α} (h : ∀ a, Q a) : p.Gives Q := fun _ a _ _ => h a

theorem peek {atEnd : Fault} {choose : Char → Reader α} (h : ∀ c, (choose c).Gives Q) :
    (peek atEnd choose).Gives Q := by
  intro s a rest hread
  rw [Reader.peek, read_afterBlanks] at hread
  cases hs : skipBlanks s with
  | nil =>
    rw [hs] at hread
    cases hread
  | cons c s =>
    rw [hs, read_look] at hread
    exact h c _ a rest hread

theorem follow {p : Reader α} {q : α → Next β} (hp : p.Gives Q)
    (hq : ∀ a, Q a → match q a with
      | .done b => R b
      | .refuse _ => True
      | .more r => r.Gives R) : (p.follow q).Gives R := by
  intro s b rest hread
  rw [read_follow] at hread
  obtain ⟨⟨a, middle⟩, hfirst, hrest⟩ := Option.bind_eq_some_iff.mp hread
  have hnext := hq a (hp s a middle hfirst)
  simp only at hrest
  split at hrest
  · next b' hb =>
    simp only [Option.some.injEq, Prod.mk.injEq] at hrest
    rw [hb] at hnext
    exact hrest.1 ▸ hnext
  · cases hrest
  · next r hr =>
    rw [hr] at hnext
    exact hnext middle b rest hrest

theorem map {p : Reader α} {f : α → β} (hp : p.Gives Q) (hf : ∀ a, Q a → R (f a)) :
    (p.map f).Gives R := hp.follow hf

theorem bind {p : Reader α} {q : α → Reader β} (hp : p.Gives Q) (hq : ∀ a, Q a → (q a).Gives R) :
    (p.bind q).Gives R := hp.follow hq

theorem follow_of_forall {p : Reader α} {q : α → Next β}
    (hq : ∀ a, match q a with
      | .done b => R b
      | .refuse _ => True
      | .more r => r.Gives R) : (p.follow q).Gives R :=
  follow (Q := fun _ => True) (of_forall fun _ => trivial) fun a _ => hq a

theorem map_of_forall {p : Reader α} {f : α → β} (h : ∀ a, R (f a)) : (p.map f).Gives R :=
  follow_of_forall h

theorem bind_of_forall {p : Reader α} {q : α → Reader β} (h : ∀ a, (q a).Gives R) :
    (p.bind q).Gives R :=
  follow_of_forall h

theorem andThen {p : Reader α} {q : Reader β} (hq : q.Gives R) : (p.andThen q).Gives R :=
  bind_of_forall fun _ => hq

theorem andClose {p : Reader α} {q : Reader Unit} (hp : p.Gives Q) : (p.andClose q).Gives Q :=
  hp.bind fun _ ha => map_of_forall fun _ => ha

/-- A repeated step keeps an invariant of its state until it ends. -/
theorem iterate {step : σ → Reader (σ ⊕ α)} {I : σ → Prop}
    (hstep : ∀ state, I state → (step state).Gives (Sum.elim I Q)) {state : σ} (hstate : I state) :
    (iterate step state).Gives Q := by
  intro s a rest hread
  -- Every step leaves less of the text.
  induction hn : s.length using Nat.strongRecOn generalizing s state with
  | ind n ih =>
    rw [read_iterate] at hread
    obtain ⟨⟨next, middle⟩, hfirst, hrest⟩ := Option.bind_eq_some_iff.mp hread
    have hnext := hstep state hstate s next middle hfirst
    cases next with
    | inr b =>
      simp only [Option.some.injEq, Prod.mk.injEq] at hrest
      exact hrest.1 ▸ hnext
    | inl state' =>
      have hshorter : middle.length < s.length := by
        apply (step state).shorter
        rw [read] at hfirst
        cases hrun : (step state).run s with
        | error e => simp [hrun, Except.toOption] at hfirst
        | ok result => simpa [hrun, Except.toOption] using hfirst
      exact ih middle.length (hn ▸ hshorter) hnext middle hrest rfl

end Gives

end Reader

/-! ## Lists and objects -/

namespace Reader

theorem gives_items {item : Reader α} {Q : α → Prop} (h : item.Gives Q) :
    (items item).Gives fun vs => ∀ v ∈ vs, Q v := by
  have hstep (before : List α) (hbefore : ∀ v ∈ before, Q v) :
      (listStep item before).Gives (Sum.elim (fun vs => ∀ v ∈ vs, Q v) fun vs => ∀ v ∈ vs, Q v) := by
    refine .peek fun c => ?_
    split
    · exact .map_of_forall fun _ => by simpa using hbefore
    split
    · refine .andThen (.peek fun c => ?_)
      split
      · exact .fail _
      · exact h.map fun v hv => by simpa using ⟨hv, hbefore⟩
    · exact .fail _
  refine .peek fun c => ?_
  split
  · exact .map_of_forall fun _ => by simp
  · exact h.bind fun v hv => .iterate hstep (by simpa using hv)

theorem gives_members {member : σ → String → Reader σ} {I : σ → Prop}
    (h : ∀ state k, I state → (member state k).Gives I) {state : σ} (hstate : I state) :
    (members member state).Gives I := by
  have hstep (state : σ) (hstate : I state) :
      (membersStep member state).Gives (Sum.elim I I) := by
    refine .peek fun c => ?_
    split
    · exact .map_of_forall fun _ => hstate
    split
    · refine .andThen (.peek fun c => ?_)
      split
      · exact .bind_of_forall fun k =>
          (h state k hstate).map fun _ hnext => hnext
      split <;> exact .fail _
    · exact .fail _
  refine .peek fun c => ?_
  split
  · exact .map_of_forall fun _ => hstate
  split
  · exact .bind_of_forall fun k =>
      (h state k hstate).bind fun _ hnext => .iterate hstep hnext
  · exact .fail _

/-- A value that is not of the expected shape is never given. -/
theorem gives_misplaced {Q : α → Prop} (expected : Expected) :
    (misplaced expected : Reader α).Gives Q := by
  have found (p : Reader Found) :
      (p.follow fun f => (.refuse (.invalidType f expected) : Next α)).Gives Q :=
    .follow_of_forall fun _ => trivial
  refine .peek fun c => ?_
  repeat' split
  -- A word, a number or a text is read to say what was found; a bracket says it by itself.
  · exact found _
  · exact found _
  · exact found _
  · exact found _
  · exact found _
  · exact .fail _
  · exact .fail _
  · exact .fail _

end Reader

/-! ## Records -/

theorem Reader.fieldMember_again {decoder : Decoder} {field : Field} {fields : List Field}
    (value : field.Carrier) (slots : Slots fields) :
    fieldMember decoder (field :: fields) (some value, slots) field.name =
      fail (.duplicateField field.name) :=
  if_pos rfl

/-- A decoder gives only what is nested within the bound. -/
def Decoder.Bounded (decoder : Decoder) (bound : Nat) : Prop :=
  ∀ s, (decoder s).Gives (s.Within (fun _ => True) bound)

/-- What the slots of a record hold so far is within the bound. -/
def Slots.Within (P : Double → Prop) (bound : Nat) : (fields : List Field) → Slots fields → Prop
  | [], () => True
  | field :: fields, (slot, slots) =>
    (∀ value ∈ slot, field.Within P bound value) ∧ Within P bound fields slots

theorem Field.within_default {field : Field} {value : field.Carrier}
    (h : field.default? = some value) : field.Within P bound value := by
  cases field with
  | required name shape => cases h
  | optional name shape =>
    cases h
    exact fun v hv => nomatch hv

theorem Slots.within_empty (fields : List Field) : Slots.Within P bound fields (.empty fields) := by
  induction fields with
  | nil => trivial
  | cons field fields ih => exact ⟨fun v hv => (nomatch hv), ih⟩

theorem Slots.within_complete {fields : List Field} {slots : Slots fields}
    (h : Slots.Within P bound fields slots) {values : Values fields}
    (hcomplete : Slots.complete fields slots = .ok values) : Values.Within P bound fields values := by
  induction fields with
  | nil => trivial
  | cons field fields ih =>
    obtain ⟨slot, slots⟩ := slots
    rw [Slots.complete] at hcomplete
    split at hcomplete
    · cases hcomplete
    next value hvalue =>
    split at hcomplete
    · cases hcomplete
    next rest hrest =>
    cases hcomplete
    refine ⟨?_, ih h.2 hrest⟩
    cases slot with
    | none => exact Field.within_default hvalue
    | some v =>
      obtain rfl : v = value := Option.some.inj hvalue
      exact h.1 v rfl

theorem Values.within_missing {name : String} {total : Nat} {fields : List Field} {place : Nat}
    {values : Values fields} (h : Values.missing name total fields place = .ok values) :
    Values.Within P bound fields values := by
  induction fields generalizing place with
  | nil => trivial
  | cons field fields ih =>
    rw [Values.missing] at h
    split at h
    · cases h
    next value hvalue =>
    split at h
    · cases h
    next rest hrest =>
    cases h
    exact ⟨Field.within_default hvalue, ih hrest⟩

namespace Reader

variable {decoder : Decoder} (hdecoder : decoder.Bounded bound)
include hdecoder

theorem gives_field (field : Field) :
    (field.reader decoder).Gives (field.Within (fun _ => True) bound) := by
  cases field with
  | required name shape => exact hdecoder shape
  | optional name shape =>
    refine .peek fun c => ?_
    split
    · exact .map_of_forall fun _ v hv => nomatch hv
    · exact (hdecoder shape).map fun v hv w hw => by cases hw; exact hv

theorem gives_fieldMember (fields : List Field) (slots : Slots fields) (k : String)
    (h : Slots.Within (fun _ => True) bound fields slots) :
    (fieldMember decoder fields slots k).Gives (Slots.Within (fun _ => True) bound fields) := by
  induction fields with
  | nil => exact .of_forall fun _ => trivial
  | cons field fields ih =>
    obtain ⟨slot, slots⟩ := slots
    by_cases hk : k = field.name
    · subst hk
      cases slot with
      | none =>
        rw [fieldMember_self]
        exact .map (.andThen (gives_field hdecoder field)) fun v hv =>
          ⟨fun w hw => by cases hw; exact hv, h.2⟩
      | some v =>
        rw [fieldMember_again]
        exact .fail _
    · rw [fieldMember_ne hk]
      exact (ih slots h.2).map fun _ hrest => ⟨h.1, hrest⟩

theorem gives_recordObject {fields : List Field} (make : Values fields → α) :
    (recordObject decoder fields make).Gives fun v =>
      ∃ values, v = make values ∧ Values.Within (fun _ => True) bound fields values := by
  refine .follow (gives_members (gives_fieldMember hdecoder fields)
    (Slots.within_empty fields)) ?_
  intro slots hslots
  cases hcomplete : slots.complete with
  | error e => simp
  | ok values => simpa [hcomplete] using ⟨values, rfl, Slots.within_complete hslots hcomplete⟩

theorem gives_recordList (name : String) (total : Nat) (fields : List Field) (place : Nat) :
    (recordList decoder name total fields place).Gives
      (Values.Within (fun _ => True) bound fields) := by
  induction fields generalizing place with
  | nil => exact .of_forall fun _ => trivial
  | cons field fields ih =>
    have helement : ((field.reader decoder).bind fun value =>
        (recordList decoder name total fields (place + 1)).map fun values =>
          (value, values)).Gives (Values.Within (fun _ => True) bound (field :: fields)) :=
      .bind (gives_field hdecoder field) fun v hv => (ih _).map fun _ hrest => ⟨hv, hrest⟩
    rw [recordList]
    refine .peek fun c => ?_
    split
    · refine .follow_of_forall fun _ => ?_
      cases hmissing : Values.missing name total (field :: fields) place with
      | error e => simp
      | ok values => simpa [hmissing] using Values.within_missing hmissing
    split
    · exact helement
    split
    · refine .andThen (.peek fun c => ?_)
      split
      · exact .fail _
      · exact helement
    · exact .fail _

end Reader

/-! ## Decoding -/

/-- Without a decoder for what is inside no bracket is opened; with one, the brackets take one
level. -/
def Inner (inner : Option Decoder) (bound : Nat) : Prop :=
  ∀ decoder ∈ inner, ∃ k, bound = k + 1 ∧ decoder.Bounded k

theorem Reader.gives_enter {inner : Option Decoder} (hinner : Inner inner bound)
    {inside : Decoder → Reader α} {Q : α → Prop}
    (h : ∀ decoder k, bound = k + 1 → decoder.Bounded k → (inside decoder).Gives Q) :
    (enter inner inside).Gives Q := by
  cases inner with
  | none => exact .fail _
  | some decoder =>
    obtain ⟨k, hbound, hdecoder⟩ := hinner decoder rfl
    exact .andThen (h decoder k hbound hdecoder)

theorem Reader.mem_of_findVariant {table : List (Variant α)} {tag : String} {variant : Variant α}
    (h : findVariant table tag = .ok variant) : variant ∈ table := by
  rw [findVariant] at h
  split at h
  · next v hv =>
    cases h
    exact List.mem_of_find?_eq_some hv
  · cases h

/-- Variants give what is nested within the bound. -/
theorem Reader.gives_variant {inner : Option Decoder} (hinner : Inner inner bound)
    {table : List (Variant α)} {toJson : α → Json} (h : ∀ variant ∈ table, variant.Agrees toJson) :
    (variant inner table).Gives fun v => (toJson v).Within (fun _ => True) bound := by
  refine .peek fun c => ?_
  split
  · refine gives_enter hinner fun decoder k hbound hdecoder => .andClose (.peek fun c => ?_)
    split
    · refine .follow_of_forall fun tag => ?_
      cases hfind : findVariant table tag with
      | error e => simp
      | ok variant =>
        have hagrees := h variant (mem_of_findVariant hfind)
        simp only
        cases variant with
        | unit tag value => exact .map_of_forall fun _ => hagrees _ _
        | data tag shape make =>
          exact .map (.andThen (hdecoder shape)) fun v hv =>
            (hagrees _ _ v).mpr ⟨k, hbound, hv⟩
    split <;> exact .fail _
  split
  · refine .follow_of_forall fun tag => ?_
    cases hfind : findVariant table tag with
    | error e => simp
    | ok variant =>
      have hagrees := h variant (mem_of_findVariant hfind)
      cases variant with
      | unit tag value => exact hagrees _ _
      | data tag shape make => trivial
  · exact .fail _

/-- What is read as the outermost layer of a value is nested within the bound. -/
theorem Form.gives {inner : Option Decoder} (hinner : Inner inner bound) {form : Form α}
    {toJson : α → Json} (h : form.Agrees toJson) :
    (form.reader inner).Gives fun v => (toJson v).Within (fun _ => True) bound := by
  cases form with
  | text make => exact .map_of_forall fun t => h _ _ t
  | any make => exact .map_of_forall fun v => h _ _ v
  | scalar make =>
    refine .follow_of_forall fun value => ?_
    cases value with
    | none => trivial
    | some v =>
      refine (h _ _ v).mpr ?_
      cases v <;> simp [Scalar.toJson, Json.Within, Json.depth]
  | unit name value => exact .map_of_forall fun _ => h _ _
  | variants table => exact Reader.gives_variant hinner h
  | record name fields make =>
    refine .peek fun c => ?_
    split
    · refine Reader.gives_enter hinner fun decoder k hbound hdecoder => ?_
      intro s v rest hread
      obtain ⟨values, rfl, hvalues⟩ := Reader.gives_recordObject hdecoder make s v rest hread
      exact (h _ _ values).mpr ⟨k, hbound, hvalues⟩
    split
    · refine Reader.gives_enter hinner fun decoder k hbound hdecoder => ?_
      exact .map (Reader.gives_recordList hdecoder _ _ _ _) fun values hvalues =>
        (h _ _ values).mpr ⟨k, hbound, hvalues⟩
    · exact Reader.gives_misplaced _
  | list item make =>
    have hlist : (Reader.list inner item).Gives fun vs =>
        (toJson (make vs)).Within (fun _ => True) bound := by
      refine .peek fun c => ?_
      split
      · refine Reader.gives_enter hinner fun decoder k hbound hdecoder => ?_
        intro s vs rest hread
        exact (h _ _ vs).mpr ⟨k, hbound, Reader.gives_items (hdecoder item) s vs rest hread⟩
      · exact Reader.gives_misplaced _
    exact hlist.map fun _ hvs => hvs

theorem decoder_gives (bound : Nat) : (decoder bound).Bounded bound := by
  induction bound with
  | zero => exact fun s => Form.gives (by simp [Inner]) s.agrees
  | succ bound ih => exact fun s => Form.gives (by simpa [Inner] using ih) s.agrees

end SyntaxForest.Document
