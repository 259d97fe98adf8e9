import SyntaxForest.Proofs.Document.Records

/-!
# The document value of a tree

`Encodes` says which document value the table of forms has for a value of a shape. There is one rule
for each form, so whatever is shown of the rules holds of all trees: that they are read back
(`Encodes.reads`), for one. The encoder follows the rules, with one case for each kind of node.
-/

namespace SyntaxForest

open Document

namespace Document

/-! ## Forms -/

/-- An array or object. -/
def Json.IsBracketed (j : Json) : Prop :=
  (∃ items, j = .array items) ∨ ∃ members, j = .object members

mutual

/-- The document value of a value of a shape. -/
inductive Encodes : (s : Shape) → s.Carrier → Json → Prop
  | text {s : Shape} {make : String → s.Carrier} {t : String} (hform : s.form = .text make) :
      Encodes s (make t) (.text t)
  | scalar {s : Shape} {make : Scalar → s.Carrier} {v : Scalar} (hform : s.form = .scalar make) :
      Encodes s (make v) v.toJson
  | unit (s : Shape) {name : String} {value : s.Carrier} (hform : s.form = .unit name value) :
      Encodes s value .null
  | name {s : Shape} {table : List (Variant s.Carrier)} {tag : String} {value : s.Carrier}
      (hform : s.form = .variants table)
      (hfind : Reader.findVariant table tag = .ok (.unit tag value)) : Encodes s value (.text tag)
  | variant (s : Shape) (tag : String) {table : List (Variant s.Carrier)} {shape : Shape}
      {make : shape.Carrier → s.Carrier} {v : shape.Carrier} {j : Json}
      (hform : s.form = .variants table)
      (hfind : Reader.findVariant table tag = .ok (.data tag shape make)) (h : Encodes shape v j) :
      Encodes s (make v) (.variant tag j)
  | record (s : Shape) {name : String} {fields : List Field} {make : Values fields → s.Carrier}
      {values : Values fields} {ms : List (String × Json)}
      (hform : s.form = .record name fields make) (h : EncodesFields fields values ms) :
      Encodes s (make values) (.object ms)
  | list {s item : Shape} {make : List item.Carrier → s.Carrier} {toJson : item.Carrier → Json}
      {vs : List item.Carrier} (hform : s.form = .list item make)
      (hobject : ∀ v ∈ vs, (toJson v).IsObject) (h : ∀ v ∈ vs, Encodes item v (toJson v)) :
      Encodes s (make vs) (.array (vs.map toJson))

/-- The members for the fields of a record. A value that is missing has no member or is null. -/
inductive EncodesFields : (fields : List Field) → Values fields → List (String × Json) → Prop
  | nil : EncodesFields [] () []
  | required {name : String} {shape : Shape} {fields : List Field} {v : shape.Carrier}
      {values : Values fields} {j : Json} {ms : List (String × Json)} (h : Encodes shape v j)
      (hrest : EncodesFields fields values ms) :
      EncodesFields (.required name shape :: fields) (v, values) ((name, j) :: ms)
  | present {name : String} {shape : Shape} {fields : List Field} {v : shape.Carrier}
      {values : Values fields} {j : Json} {ms : List (String × Json)} (hj : j.IsBracketed)
      (h : Encodes shape v j) (hrest : EncodesFields fields values ms) :
      EncodesFields (.optional name shape :: fields) (some v, values) ((name, j) :: ms)
  | null {name : String} {shape : Shape} {fields : List Field} {values : Values fields}
      {ms : List (String × Json)} (hrest : EncodesFields fields values ms) :
      EncodesFields (.optional name shape :: fields) (none, values) ((name, .null) :: ms)
  | absent {name : String} {shape : Shape} {fields : List Field} {values : Values fields}
      {ms : List (String × Json)} (hrest : EncodesFields fields values ms) :
      EncodesFields (.optional name shape :: fields) (none, values) ms

end

theorem reads_text {s : Shape} {make : String → s.Carrier} {t : String}
    (hform : s.form = .text make) : Reads s (make t) (.text t) := by
  intro bound
  rw [decoder_eq, hform]
  exact (faithful_text bound t).map make

theorem reads_scalar {s : Shape} {make : Scalar → s.Carrier} {v : Scalar}
    (hform : s.form = .scalar make) : Reads s (make v) v.toJson := by
  intro bound
  -- Payloads are the only shape that is written as a number.
  cases s <;> cases hform
  rw [decoder_eq]
  exact faithful_scalar _ bound v

theorem reads_unit {s : Shape} {name : String} {value : s.Carrier}
    (hform : s.form = .unit name value) : Reads s value .null := by
  intro bound
  rw [decoder_eq, hform]
  exact (faithful_unit _ bound).map fun _ => value

theorem reads_list_of {s item : Shape} {make : List item.Carrier → s.Carrier}
    {toJson : item.Carrier → Json} {vs : List item.Carrier} (hform : s.form = .list item make)
    (hobject : ∀ v ∈ vs, (toJson v).IsObject) (h : ∀ v ∈ vs, Reads item v (toJson v)) :
    Reads s (make vs) (.array (vs.map toJson)) := by
  cases s <;> cases hform
  exact reads_list hobject h

theorem FieldReads.of_isBracketed {name : String} {shape : Shape} {v : shape.Carrier} {j : Json}
    (hj : j.IsBracketed) (h : Reads shape v j) :
    FieldReads (.optional name shape) (some v) j := by
  obtain ⟨items, rfl⟩ | ⟨members, rfl⟩ := hj
  · exact .present (fun sp => Json.chars_array sp items) (.inl rfl) h
  · exact .present (fun sp => Json.chars_object sp members) (.inr rfl) h

/-- Every value is read back from its document value. -/
theorem Encodes.reads {s : Shape} {v : s.Carrier} {j : Json} (h : Encodes s v j) : Reads s v j := by
  induction h using Encodes.rec (motive_2 := fun fields values ms _ => Members fields values ms) with
  | text hform => exact reads_text hform
  | scalar hform => exact reads_scalar hform
  | unit s hform => exact reads_unit hform
  | name hform hfind => exact reads_name hform hfind
  | variant s tag hform hfind _ ih => exact reads_variant s tag hform hfind ih
  | record s hform _ ih => exact reads_record s hform ih
  | list hform hobject _ ih => exact reads_list_of hform hobject ih
  | nil => exact .nil
  | required _ _ ih ihrest => exact .present (.required ih) ihrest
  | present hj _ _ ih ihrest => exact .present (.of_isBracketed hj ih) ihrest
  | null _ ihrest => exact .present .null ihrest
  | absent _ ihrest => exact .absent rfl ihrest

theorem encodes_text (t : String) : Encodes .name t (.text t) :=
  (.text rfl : Encodes .name (id t) (.text t))

theorem encodes_list {item : Shape} {toJson : item.Carrier → Json} {vs : List item.Carrier}
    (hobject : ∀ v ∈ vs, (toJson v).IsObject) (h : ∀ v ∈ vs, Encodes item v (toJson v)) :
    Encodes (.list item) vs (.array (vs.map toJson)) :=
  (.list rfl hobject h : Encodes (.list item) (id vs) (.array (vs.map toJson)))

end Document

/-! ## Vocabularies -/

theorem Primitive.encodes (kind : Primitive) : Encodes .primitive kind (.text kind.keyword) :=
  .name rfl (by cases kind <;> rfl)

theorem UnaryOp.encodes (op : UnaryOp) : Encodes .unaryOp op (.text op.name) :=
  .name rfl (by cases op <;> rfl)

theorem BinaryOp.encodes (op : BinaryOp) : Encodes .binaryOp op (.text op.name) :=
  .name rfl (by cases op <;> rfl)

theorem AssignOp.encodes (op : AssignOp) : Encodes .assignOp op (.text op.name) :=
  .name rfl (by cases op <;> rfl)

theorem Scalar.encodes (v : Scalar) : Encodes .scalar v v.toJson :=
  (.scalar rfl : Encodes .scalar (id v) v.toJson)

theorem TypeBase.encodes (base : TypeBase) : Encodes .typeBase base base.toJson := by
  cases base with
  | primitive kind => exact .variant .typeBase "Primitive" rfl rfl kind.encodes
  | reference id => exact .variant .typeBase "Reference" rfl rfl (encodes_text id)

theorem Constant.encodes (c : Constant) : Encodes .constant c c.toJson :=
  .record .constant rfl (.required c.kind.encodes (.required c.value.encodes .nil))

/-! ## Expressions and types -/

theorem Expr.toJson_isObject (e : Expr) : e.toJson.IsObject := ⟨_, rfl⟩

theorem Expr.toJsons_eq (es : List Expr) : Expr.toJsons es = es.map Expr.toJson := by
  induction es with
  | nil => rfl
  | cons e es ih => simp [Expr.toJsons, ih, Expr.toJson]

theorem Expr.encodes_list_of {es : List Expr} (h : ∀ e ∈ es, Encodes .expr e e.toJson) :
    Encodes (.list .expr) es (.array (Expr.toJsons es)) := by
  rw [Expr.toJsons_eq]
  exact encodes_list (fun e _ => e.toJson_isObject) h

mutual

theorem Expr.encodes : (e : Expr) → Encodes .expr e e.toJson
  | .ident id => .variant .expr "Identifier" rfl rfl (encodes_text id)
  | .const c => .variant .expr "Constant" rfl rfl c.encodes
  | .call func args => .variant .expr "FunctionCall" rfl rfl (.record .call rfl
      (.required func.encodes (.required (Expr.encodes_list_of (Expr.encodesAll args)) .nil)))
  | .index var idx => .variant .expr "IndexOf" rfl rfl (.record .index rfl
      (.required var.encodes (.required idx.encodes .nil)))
  | .access var field => .variant .expr "Access" rfl rfl (.record .access rfl
      (.required var.encodes (.required field.encodes .nil)))
  | .cast ty e => .variant .expr "TypeCast" rfl rfl (.record .cast rfl
      (.required ty.encodes (.required e.encodes .nil)))
  | .unary op e => .variant .expr "UnaOp" rfl rfl (.record .unary rfl
      (.required op.encodes (.required e.encodes .nil)))
  | .binary op left right => .variant .expr "BinOp" rfl rfl (.record .binary rfl
      (.required op.encodes (.required left.encodes (.required right.encodes .nil))))
  | .assign op lval rval => .variant .expr "Assign" rfl rfl (.record .assign rfl
      (.required op.encodes (.required lval.encodes (.required rval.encodes .nil))))

theorem Ty.encodes : (ty : Ty) → Encodes .type ty ty.toJson
  | ⟨base, none⟩ => .record .type rfl (.required base.encodes (.absent .nil))
  | ⟨base, some dims⟩ => .record .type rfl (.required base.encodes
      (.present (.inl ⟨_, rfl⟩) (Expr.encodes_list_of (Expr.encodesAll dims)) .nil))

theorem Expr.encodesAll : (es : List Expr) → ∀ e ∈ es, Encodes .expr e e.toJson
  | [] => by simp
  | e :: es => by
    rw [List.forall_mem_cons]
    exact ⟨e.encodes, Expr.encodesAll es⟩

end

/-! ## Statements -/

/-- An expression that may be missing, as the last field of a record. -/
theorem Expr.encodes_option (name : String) (e : Option Expr) :
    EncodesFields [.optional name .expr] (e, ()) [(name, .ofOption (e.map Expr.toJson))] := by
  cases e with
  | none => exact .null .nil
  | some e => exact .present (.inr ⟨_, rfl⟩) e.encodes .nil

theorem Declarator.encodes (d : Declarator) : Encodes .declarator d d.toJson :=
  .record .declarator rfl (.required (encodes_text d.id) (Expr.encodes_option "init" d.init))

theorem Declaration.encodes (d : Declaration) : Encodes .declaration d d.toJson :=
  .record .declaration rfl (.required d.ty.encodes
    (.required (encodes_list (fun _ _ => ⟨_, rfl⟩) fun d _ => d.encodes) .nil))

theorem Stmt.toJsons_eq (ss : List Stmt) : Stmt.toJsons ss = ss.map Stmt.toJson := by
  induction ss with
  | nil => rfl
  | cons s ss ih => simp [Stmt.toJsons, ih, Stmt.toJson]

/-- The statements of a block, without the name of its variant. -/
theorem Stmt.encodes_block_of {ss : List Stmt} (h : ∀ s ∈ ss, Encodes .stmt s s.toJson) :
    Encodes .block ss (Stmt.block ss).payload := by
  rw [Stmt.payload, Stmt.toJsons_eq]
  exact .record .block rfl (.required (encodes_list (fun _ _ => ⟨_, rfl⟩) h) .nil)

mutual

theorem Stmt.encodes : (s : Stmt) → Encodes .stmt s s.toJson
  | .brk => .variant .stmt "Break" rfl rfl (.unit .brk rfl)
  | .cont => .variant .stmt "Continue" rfl rfl (.unit .cont rfl)
  | .ret value => .variant .stmt "Return" rfl rfl
      (.record .ret rfl (Expr.encodes_option "value" value))
  | .block stats => .variant .stmt "Block" rfl rfl (Stmt.encodes_block_of (Stmt.encodesAll stats))
  | .expr e => .variant .stmt "ExpStatement" rfl rfl
      (.record .exprStmt rfl (.required e.encodes .nil))
  | .decl d => .variant .stmt "Declaration" rfl rfl d.encodes
  | .ite condition thenBranch none => .variant .stmt "If" rfl rfl (.record .ite rfl
      (.required condition.encodes (.required thenBranch.encodes (.null .nil))))
  | .ite condition thenBranch (some elseBranch) => .variant .stmt "If" rfl rfl (.record .ite rfl
      (.required condition.encodes (.required thenBranch.encodes
        (.present (.inr ⟨_, rfl⟩) elseBranch.encodes .nil))))
  | .loop condition body => .variant .stmt "While" rfl rfl (.record .loop rfl
      (.required condition.encodes (.required body.encodes .nil)))

theorem Stmt.encodesAll : (ss : List Stmt) → ∀ s ∈ ss, Encodes .stmt s s.toJson
  | [] => by simp
  | s :: ss => by
    rw [List.forall_mem_cons]
    exact ⟨s.encodes, Stmt.encodesAll ss⟩

end

/-! ## Other nodes -/

theorem Parameter.encodes (p : Parameter) : Encodes .parameter p p.toJson :=
  .record .parameter rfl (.required p.ty.encodes (.required (encodes_text p.id) .nil))

theorem Header.encodes (h : Header) : Encodes .header h h.toJson :=
  .record .header rfl (.required h.ty.encodes (.required (encodes_text h.id)
    (.required (encodes_list (fun _ _ => ⟨_, rfl⟩) fun p _ => p.encodes) .nil)))

theorem FunctionDecl.encodes (f : FunctionDecl) : Encodes .function f f.toJson :=
  .record .function rfl (.required f.header.encodes
    (.required (Stmt.encodes_block_of (Stmt.encodesAll f.body)) .nil))

theorem StructDecl.encodes (s : StructDecl) : Encodes .struct s s.toJson :=
  .record .struct rfl (.required (encodes_text s.id)
    (.required (encodes_list (fun _ _ => ⟨_, rfl⟩) fun d _ => d.encodes) .nil))

theorem Node.encodes (n : Node) : Encodes .node n n.toJson := by
  cases n with
  | expr e => exact .variant .node "Expression" rfl rfl e.encodes
  | stmt s => exact .variant .node "Statement" rfl rfl s.encodes
  | type ty => exact .variant .node "Type" rfl rfl ty.encodes
  | declarator d => exact .variant .node "Declarator" rfl rfl d.encodes
  | parameter p => exact .variant .node "FormalParameter" rfl rfl p.encodes
  | header h => exact .variant .node "FunctionHeader" rfl rfl h.encodes
  | function f => exact .variant .node "FunctionDeclaration" rfl rfl f.encodes
  | struct s => exact .variant .node "StructDeclaration" rfl rfl s.encodes

end SyntaxForest
