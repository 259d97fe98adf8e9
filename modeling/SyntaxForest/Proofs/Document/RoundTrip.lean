import SyntaxForest.Forest
import SyntaxForest.Proofs.Document.Trees
import SyntaxForest.Proofs.Tree.Parts

/-!
# Reading a forest back from its own document

Writing a forest and reading the document back gives the verdict of the check: the forest itself if
every tree in it is well formed, else the first violation. Two things stand in the way. A number
that is not finite has no text, and a document may not be nested deeper than `maxDepth`; in either
case the document is malformed. And a few finite numbers do not come back from their own text.
-/

namespace SyntaxForest

open Document Numeric

/-! ## The numbers in a document are the payloads of the tree -/

namespace Document.Json

theorem floats_variant (tag : String) (j : Json) : (variant tag j).floats = j.floats := by
  simp [variant, floats, membersFloats]

theorem itemsFloats_map {α : Type} (f : α → Json) (vs : List α) :
    itemsFloats (vs.map f) = vs.flatMap fun v => (f v).floats := by
  induction vs with
  | nil => simp [itemsFloats]
  | cons v vs ih => simp [itemsFloats, ih]

end Document.Json

theorem Node.fractions_name (id : String) : (Node.name id).fractions = [] := by
  rw [Node.fractions_eq]
  rfl

theorem TypeBase.floats_toJson (base : TypeBase) : base.toJson.floats = [] := by
  cases base <;> simp [TypeBase.toJson, Json.floats_variant, Json.floats]

theorem Constant.floats_toJson (c : Constant) :
    c.toJson.floats = (Node.fraction? (.expr (.const c))).toList := by
  obtain ⟨kind, value⟩ := c
  cases value <;>
    simp [Constant.toJson, Scalar.toJson, Json.floats, Json.membersFloats, Node.fraction?]

mutual

theorem Expr.floats_payload (e : Expr) : e.payload.floats = (Node.expr e).fractions := by
  rw [Node.fractions_eq]
  match e with
  | .ident id => simp [Expr.payload, Json.floats, Node.fraction?, Node.children, Expr.children]
  | .const c => simp [Expr.payload, Constant.floats_toJson, Node.children, Expr.children]
  | .call func args =>
    simp [Expr.payload, Json.floats, Json.membersFloats, Json.floats_variant, func.floats_payload,
      Expr.floats_toJsons args, Node.fraction?, Node.children, Expr.children, List.flatMap_map]
  | .index var idx =>
    simp [Expr.payload, Json.floats, Json.membersFloats, Json.floats_variant, var.floats_payload,
      idx.floats_payload, Node.fraction?, Node.children, Expr.children]
  | .access var field =>
    simp [Expr.payload, Json.floats, Json.membersFloats, Json.floats_variant, var.floats_payload,
      field.floats_payload, Node.fraction?, Node.children, Expr.children]
  | .cast ty e =>
    simp [Expr.payload, Json.floats, Json.membersFloats, Json.floats_variant, ty.floats_toJson,
      e.floats_payload, Node.fraction?, Node.children, Expr.children]
  | .unary op e =>
    simp [Expr.payload, Json.floats, Json.membersFloats, Json.floats_variant, e.floats_payload,
      Node.fraction?, Node.children, Expr.children]
  | .binary op left right =>
    simp [Expr.payload, Json.floats, Json.membersFloats, Json.floats_variant, left.floats_payload,
      right.floats_payload, Node.fraction?, Node.children, Expr.children]
  | .assign op lval rval =>
    simp [Expr.payload, Json.floats, Json.membersFloats, Json.floats_variant, lval.floats_payload,
      rval.floats_payload, Node.fraction?, Node.children, Expr.children]

theorem Ty.floats_toJson (ty : Ty) : ty.toJson.floats = (Node.type ty).fractions := by
  rw [Node.fractions_eq]
  match ty with
  | ⟨base, dims⟩ =>
    have hdims : Json.membersFloats (Expr.dimsMember dims) =
        (dims.getD []).flatMap fun e => (Node.expr e).fractions := by
      match dims with
      | none => simp [Expr.dimsMember, Json.membersFloats]
      | some es =>
        simp [Expr.dimsMember, Json.membersFloats, Json.floats, Expr.floats_toJsons es]
    cases base <;>
      simp [Ty.toJson, Json.floats, Json.membersFloats, TypeBase.floats_toJson, hdims,
        Node.fraction?, Node.fractions_name, Node.children, Ty.children, List.flatMap_map]

theorem Expr.floats_toJsons (es : List Expr) :
    Json.itemsFloats (Expr.toJsons es) = es.flatMap fun e => (Node.expr e).fractions := by
  match es with
  | [] => simp [Expr.toJsons, Json.itemsFloats]
  | e :: es =>
    simp [Expr.toJsons, Json.itemsFloats, Json.floats_variant, e.floats_payload,
      Expr.floats_toJsons es]

end

theorem Expr.floats_option (e : Option Expr) :
    (Json.ofOption (e.map Expr.toJson)).floats =
      e.toList.flatMap fun e => (Node.expr e).fractions := by
  cases e with
  | none => rfl
  | some e => simp [Json.ofOption, Expr.toJson, Json.floats_variant, e.floats_payload]

theorem Declarator.floats_toJson (d : Declarator) :
    d.toJson.floats = (Node.declarator d).fractions := by
  simp [Node.fractions_eq (.declarator d), Node.fractions_name, Declarator.toJson, Json.floats,
    Json.membersFloats, Expr.floats_option, Node.fraction?, Node.children, List.flatMap_map]

theorem Declaration.floats_toJson (d : Declaration) :
    d.toJson.floats = (Node.declaration d).fractions := by
  simp [Node.fractions_eq (.declaration d), Declaration.toJson, Json.floats, Json.membersFloats,
    Json.itemsFloats_map, Declarator.floats_toJson, d.ty.floats_toJson, Node.fraction?,
    Node.children, Stmt.children, List.flatMap_map]

mutual

theorem Stmt.floats_payload (s : Stmt) : s.payload.floats = (Node.stmt s).fractions := by
  match s with
  | .brk => simp [Node.fractions_eq, Stmt.payload, Json.floats, Node.fraction?, Node.children,
      Stmt.children]
  | .cont => simp [Node.fractions_eq, Stmt.payload, Json.floats, Node.fraction?, Node.children,
      Stmt.children]
  | .ret value =>
    simp [Node.fractions_eq (.stmt (.ret value)), Stmt.payload, Json.floats, Json.membersFloats,
      Expr.floats_option, Node.fraction?, Node.children, Stmt.children, List.flatMap_map]
  | .block stats =>
    simp [Node.fractions_eq (.stmt (.block stats)), Stmt.payload, Json.floats, Json.membersFloats,
      Stmt.floats_toJsons stats, Node.fraction?, Node.children, Stmt.children, List.flatMap_map]
  | .expr e =>
    simp [Node.fractions_eq (.stmt (.expr e)), Stmt.payload, Json.floats, Json.membersFloats,
      Expr.toJson, Json.floats_variant, e.floats_payload, Node.fraction?, Node.children,
      Stmt.children]
  | .decl d => exact d.floats_toJson
  | .ite condition thenBranch elseBranch =>
    simp [Node.fractions_eq (.stmt (.ite condition thenBranch elseBranch)), Stmt.payload,
      Json.floats, Json.membersFloats, Expr.toJson, Json.floats_variant, condition.floats_payload,
      thenBranch.floats_payload, Stmt.floats_branchJson elseBranch, Node.fraction?, Node.children,
      Stmt.children, List.flatMap_map]
  | .loop condition body =>
    simp [Node.fractions_eq (.stmt (.loop condition body)), Stmt.payload, Json.floats,
      Json.membersFloats, Expr.toJson, Json.floats_variant, condition.floats_payload,
      body.floats_payload, Node.fraction?, Node.children, Stmt.children]

theorem Stmt.floats_branchJson (branch : Option Stmt) :
    (Stmt.branchJson branch).floats = branch.toList.flatMap fun s => (Node.stmt s).fractions := by
  match branch with
  | none => simp [Stmt.branchJson, Json.floats]
  | some s => simp [Stmt.branchJson, Json.floats_variant, s.floats_payload]

theorem Stmt.floats_toJsons (ss : List Stmt) :
    Json.itemsFloats (Stmt.toJsons ss) = ss.flatMap fun s => (Node.stmt s).fractions := by
  match ss with
  | [] => simp [Stmt.toJsons, Json.itemsFloats]
  | s :: ss =>
    simp [Stmt.toJsons, Json.itemsFloats, Json.floats_variant, s.floats_payload,
      Stmt.floats_toJsons ss]

end

theorem Parameter.floats_toJson (p : Parameter) :
    p.toJson.floats = (Node.parameter p).fractions := by
  simp [Node.fractions_eq (.parameter p), Node.fractions_name, Parameter.toJson, Json.floats,
    Json.membersFloats, p.ty.floats_toJson, Node.fraction?, Node.children]

theorem Header.floats_toJson (h : Header) : h.toJson.floats = (Node.header h).fractions := by
  simp [Node.fractions_eq (.header h), Node.fractions_name, Header.toJson, Json.floats,
    Json.membersFloats, Json.itemsFloats_map, h.ty.floats_toJson, Parameter.floats_toJson,
    Node.fraction?, Node.children, List.flatMap_map]

/-- The numbers in the document of a tree that need not be whole are its fractional payloads. -/
theorem Node.floats_toJson (n : Node) : n.toJson.floats = n.fractions := by
  rw [Node.toJson, Json.floats_variant]
  cases n with
  | expr e => simp [Node.payload, Expr.toJson, Json.floats_variant, e.floats_payload]
  | stmt s => simp [Node.payload, Stmt.toJson, Json.floats_variant, s.floats_payload]
  | type ty => exact ty.floats_toJson
  | declarator d => exact d.floats_toJson
  | parameter p => exact p.floats_toJson
  | header h => exact h.floats_toJson
  | function f =>
    simp [Node.fractions_eq (.function f), Node.payload, FunctionDecl.toJson, Json.floats,
      Json.membersFloats, f.header.floats_toJson, Stmt.floats_payload, Node.fraction?,
      Node.children]
  | struct s =>
    simp [Node.fractions_eq (.struct s), Node.fractions_name, Node.payload, StructDecl.toJson,
      Json.floats, Json.membersFloats, Json.itemsFloats_map, Declaration.floats_toJson,
      Node.fraction?, Node.children, List.flatMap_map]

/-! ## Forests -/

namespace Forest

/-- The document value that describes a forest. -/
def document (forest : Forest) : Json := .array (forest.map Node.toJson)

/-- All fractional payloads in a forest. -/
def fractions (forest : Forest) : List Double := forest.flatMap Node.fractions

theorem floats_document (forest : Forest) : forest.document.floats = forest.fractions := by
  simp [document, fractions, Json.floats, Json.itemsFloats_map, Node.floats_toJson]

theorem encodes (forest : Forest) : Encodes (.list .node) forest forest.document :=
  encodes_list (fun _ _ => ⟨_, rfl⟩) fun n _ => n.encodes

theorem dump_toList (forest : Forest) :
    (dump forest).toList = forest.document.chars (.indented 0) := by
  simp [dump, Json.pretty, Json.write_toList, document]

/-- Decoding the document of a forest with blanks behind it, as a verdict on the forest. -/
theorem decode_dump_append (forest : Forest) (blanks : String)
    (hb : Blank blanks.toList) :
    Verdict (decode (dump forest ++ blanks)).toOption forest
      (forest.document.depth ≤ 127 ∧ ∀ x ∈ forest.fractions, Recovers x)
      (forest.document.depth ≤ 127 ∧ ∀ x ∈ forest.fractions, x.isFinite = true) := by
  obtain ⟨outcome, hyields, hverdict⟩ := forest.encodes.reads maxDepth (.indented 0)
  rw [decode, Document.decode, String.toList_append, dump_toList, decodeChars_toOption hyields hb,
    ← floats_document]
  exact hverdict

/-- Decoding the document of a forest, as a verdict on it. -/
theorem decode_dump (forest : Forest) :
    Verdict (decode (dump forest)).toOption forest
      (forest.document.depth ≤ 127 ∧ ∀ x ∈ forest.fractions, Recovers x)
      (forest.document.depth ≤ 127 ∧ ∀ x ∈ forest.fractions, x.isFinite = true) := by
  simpa using forest.decode_dump_append "" Blank.nil

theorem decode_eq_ok_iff {source : String} {forest : Forest} :
    decode source = .ok forest ↔ (decode source).toOption = some forest := by
  cases decode source <;> simp [Except.toOption]

/-- A forest comes back from its document if all its payloads do and it is not nested too deep. -/
theorem decode_dump_eq_ok {forest : Forest} (hdepth : forest.document.depth ≤ 127)
    (hrecovers : ∀ x ∈ forest.fractions, Recovers x) : decode (dump forest) = .ok forest :=
  decode_eq_ok_iff.mpr ((decode_dump forest).eq_some ⟨hdepth, hrecovers⟩)

theorem check_eq_ok {forest : Forest} (h : ∀ n ∈ forest, n.check = .ok ()) :
    check forest = .ok () := by
  induction forest with
  | nil => rfl
  | cons n forest ih =>
    rw [List.forall_mem_cons] at h
    rw [check, checkEach, h.1]
    exact ih h.2

theorem check_eq_error {before after : Forest} {n : Node} {e : TreeError}
    (h : ∀ m ∈ before, m.check = .ok ()) (hn : n.check = .error e) :
    check (before ++ n :: after) = .error e := by
  induction before with
  | nil =>
    rw [List.nil_append, check, checkEach, hn]
    rfl
  | cons m before ih =>
    rw [List.forall_mem_cons] at h
    rw [List.cons_append, check, checkEach, h.1]
    exact ih h.2

theorem parse_of_decode_error {source : String} (h : (decode source).toOption = none) :
    ∃ fault, parse source = .error (.malformed fault) := by
  cases hd : decode source with
  | error fault => exact ⟨fault, by simp [parse, hd]⟩
  | ok forest => simp [hd, Except.toOption] at h

theorem parse_of_check_ok {source : String} {forest : Forest}
    (h : (decode source).toOption = some forest) (hcheck : check forest = .ok ()) :
    parse source = .ok forest := by
  cases hd : decode source with
  | error fault => simp [hd, Except.toOption] at h
  | ok forest' =>
    simp only [hd, Except.toOption, Option.some.injEq] at h
    simp [parse, hd, h, hcheck]

theorem parse_of_check_error {source : String} {forest : Forest} {e : TreeError}
    (h : (decode source).toOption = some forest) (hcheck : check forest = .error e) :
    parse source = .error (.invalid e) := by
  cases hd : decode source with
  | error fault => simp [hd, Except.toOption] at h
  | ok forest' =>
    simp only [hd, Except.toOption, Option.some.injEq] at h
    simp [parse, hd, h, hcheck]

/-- Writing a forest and reading its document back gives the verdict of the check, unless a payload
is not finite or the document is nested too deep; then the document is malformed. -/
theorem parse_dump (forest : Forest) :
    ((∃ x ∈ forest.fractions, x.isFinite = false) ∨ 127 < forest.document.depth →
      ∃ fault, parse (dump forest) = .error (.malformed fault)) ∧
    ((∀ x ∈ forest.fractions, x.isFinite = true) → forest.document.depth ≤ 127 →
      (∀ x ∈ forest.fractions, Recovers x) →
      ((∀ n ∈ forest, n.check = .ok ()) → parse (dump forest) = .ok forest) ∧
      (∀ before n after e, forest = before ++ n :: after → (∀ m ∈ before, m.check = .ok ()) →
        n.check = .error e → parse (dump forest) = .error (.invalid e))) := by
  have hverdict := decode_dump forest
  refine ⟨?_, ?_⟩
  · intro hbad
    apply parse_of_decode_error
    apply hverdict.eq_none
    rintro ⟨hdepth, hfinite⟩
    rcases hbad with ⟨x, hx, hnot⟩ | hdeep
    · rw [hfinite x hx] at hnot
      cases hnot
    · omega
  · intro _ hdepth hrecovers
    have hdecode := hverdict.eq_some ⟨hdepth, hrecovers⟩
    -- From here on only the check decides.
    refine ⟨?_, ?_⟩
    · intro hcheck
      exact parse_of_check_ok hdecode (check_eq_ok hcheck)
    · rintro before n after e rfl hbefore hn
      exact parse_of_check_error hdecode (check_eq_error hbefore hn)

/-- A sum with a quote, a tab and an accented letter in a name and with a fractional payload: it is
read back, an empty declaration behind it is reported, and a payload that is no number is not
read. -/
theorem parse_dump_empty_declaration :
    let sum : Node := .expr (.binary .add (.ident "a\"\té")
      (.const ⟨.double, .float (.ofBits .double 0x4004000000000000)⟩))
    let undefined : Node := .expr (.const ⟨.double, .float (.ofBits .double 0x7ff8000000000000)⟩)
    parse (dump [sum]) = .ok [sum] ∧
    parse (dump [sum, .declaration ⟨⟨.primitive .int, none⟩, []⟩]) =
      .error (.invalid (.emptyDeclaration "int")) ∧
    ∃ fault, parse (dump [sum, undefined]) = .error (.malformed fault) :=
  ⟨((parse_dump _).2 (by decide +kernel) (by decide +kernel) (by decide +kernel)).1
      (by simp; rfl),
    ((parse_dump _).2 (by decide +kernel) (by decide +kernel) (by decide +kernel)).2
      [_] _ [] _ rfl (by simp; rfl) (by rfl),
    (parse_dump _).1 (by decide +kernel)⟩

end Forest

end SyntaxForest
