import SyntaxForest.Proofs.Tree.Checked
import SyntaxForest.Proofs.Tree.Replacement
import SyntaxForest.Tree.Build
import SyntaxForest.Tree.Equality

/-!
# Equality up to the signs of zeros

Equality of trees compares fractional payloads as numbers, so it is not identity: the zeros of both
signs are the same, and a tree that holds what is no number is not even the same as itself. This is
all the difference there is (`Node.same_iff`): two trees are the same exactly when all their
payloads are numbers and they become identical once no zero has a sign (`Node.unsignZeros`). So they
agree in everything that does not depend on those signs.
-/

namespace SyntaxForest

open Numeric

/-! ## Payloads -/

/-- A zero without its sign, and every other number as it is. -/
def Numeric.Binary.unsignZero {F : Format} (x : Binary F) : Binary F :=
  if x.isZero then { x with negative := false } else x

theorem Numeric.Binary.unsignZero_eq_iff {F : Format} {x y : Binary F} :
    x.unsignZero = y.unsignZero ↔ x.isZero = true ∧ y.isZero = true ∨ x = y := by
  obtain ⟨xneg, xmag, hx⟩ := x
  obtain ⟨yneg, ymag, hy⟩ := y
  by_cases hx0 : xmag = 0 <;> by_cases hy0 : ymag = 0 <;>
    simp [Binary.unsignZero, Binary.isZero, hx0, hy0]
  -- One of the two is a zero and the other is not.
  all_goals grind

theorem Numeric.Binary.same_iff {F : Format} {x y : Binary F} :
    x.same y = true ↔ x.isNaN = false ∧ y.isNaN = false ∧ x.unsignZero = y.unsignZero := by
  simp [Binary.same, Binary.unsignZero_eq_iff, and_assoc]

/-- The payload with a zero that has no sign. -/
def Scalar.unsignZero : Scalar → Scalar
  | .int value => .int value
  | .float value => .float value.unsignZero

def Constant.unsignZero (c : Constant) : Constant := ⟨c.kind, c.value.unsignZero⟩

/-- The tree with no sign at any zero. -/
def Node.unsignZeros (n : Node) : Node := n.mapConstants Constant.unsignZero

/-! ## Trees of numbers -/

/-- Whether all fractional payloads of a tree are numbers. -/
def Node.IsNumeric (n : Node) : Prop := ∀ x ∈ n.fractions, x.isNaN = false

theorem Node.isNumeric_iff (n : Node) :
    n.IsNumeric ↔
      (∀ x ∈ n.fraction?, x.isNaN = false) ∧ ∀ m ∈ n.children, m.IsNumeric := by
  rw [Node.IsNumeric, Node.fractions_eq, List.forall_mem_append]
  simp only [Option.mem_toList, Option.mem_def, List.mem_flatMap, forall_exists_index, and_imp,
    Node.IsNumeric]
  grind

theorem Node.isNumeric_name (id : String) : (Node.name id).IsNumeric := by
  rw [Node.isNumeric_iff]
  simp [Node.fraction?, Node.children, Expr.children]

/-- Only the dimensions of a type hold numbers. -/
theorem Node.isNumeric_type (ty : Ty) :
    (Node.type ty).IsNumeric ↔ ∀ e ∈ ty.dims.getD [], (Node.expr e).IsNumeric := by
  obtain ⟨base, dims⟩ := ty
  rw [Node.isNumeric_iff]
  cases base <;> simp [Node.fraction?, Node.children, Ty.children, Node.isNumeric_name]

/-- Whole payloads are compared as they are, fractional ones as numbers, and never one with the
other. -/
theorem Constant.same_iff (c d : Constant) :
    c.same d = true ↔ (Node.expr (.const c)).IsNumeric ∧ (Node.expr (.const d)).IsNumeric ∧
      c.unsignZero = d.unsignZero := by
  obtain ⟨kind, value⟩ := c
  obtain ⟨kind', value'⟩ := d
  rw [Node.isNumeric_iff, Node.isNumeric_iff]
  cases value <;> cases value' <;>
    simp [Constant.same, Scalar.same, Constant.unsignZero, Scalar.unsignZero, Node.fraction?,
      Node.children, Expr.children, Binary.same_iff, and_left_comm]

/-! ## Comparing two trees

The inductions are on the first tree. Where the second one has another form, the two are not the
same and do not become identical either; where it has the same form, both questions are about the
parts. -/

mutual

theorem Expr.same_iff (e e' : Expr) :
    e.same e' = true ↔ (Node.expr e).IsNumeric ∧ (Node.expr e').IsNumeric ∧
      e.mapConstants Constant.unsignZero = e'.mapConstants Constant.unsignZero := by
  match e with
  | .ident name =>
    cases e' with
    | ident name' => simp [Expr.same, Expr.mapConstants, Node.isNumeric_name]
    | _ => simp [Expr.same, Expr.mapConstants]
  | .const c =>
    cases e' with
    | const c' => simp [Expr.same, Expr.mapConstants, Constant.same_iff]
    | _ => simp [Expr.same, Expr.mapConstants]
  | .call func args =>
    cases e' with
    | call func' args' =>
      rw [Node.isNumeric_iff, Node.isNumeric_iff]
      simp [Expr.same, Expr.mapConstants, Node.fraction?, Node.children, Expr.children,
        Expr.same_iff func func', Expr.sameAll_iff args args', and_assoc, and_left_comm]
    | _ => simp [Expr.same, Expr.mapConstants]
  | .index var idx =>
    cases e' with
    | index var' idx' =>
      rw [Node.isNumeric_iff, Node.isNumeric_iff]
      simp [Expr.same, Expr.mapConstants, Node.fraction?, Node.children, Expr.children,
        Expr.same_iff var var', Expr.same_iff idx idx', and_assoc, and_left_comm]
    | _ => simp [Expr.same, Expr.mapConstants]
  | .access var field =>
    cases e' with
    | access var' field' =>
      rw [Node.isNumeric_iff, Node.isNumeric_iff]
      simp [Expr.same, Expr.mapConstants, Node.fraction?, Node.children, Expr.children,
        Expr.same_iff var var', Expr.same_iff field field', and_assoc, and_left_comm]
    | _ => simp [Expr.same, Expr.mapConstants]
  | .cast ty e =>
    cases e' with
    | cast ty' e' =>
      rw [Node.isNumeric_iff, Node.isNumeric_iff]
      simp [Expr.same, Expr.mapConstants, Node.fraction?, Node.children, Expr.children,
        Ty.same_iff ty ty', Expr.same_iff e e', and_assoc, and_left_comm]
    | _ => simp [Expr.same, Expr.mapConstants]
  | .unary op e =>
    cases e' with
    | unary op' e' =>
      rw [Node.isNumeric_iff, Node.isNumeric_iff]
      simp [Expr.same, Expr.mapConstants, Node.fraction?, Node.children, Expr.children,
        Expr.same_iff e e', and_left_comm]
    | _ => simp [Expr.same, Expr.mapConstants]
  | .binary op left right =>
    cases e' with
    | binary op' left' right' =>
      rw [Node.isNumeric_iff, Node.isNumeric_iff]
      simp [Expr.same, Expr.mapConstants, Node.fraction?, Node.children, Expr.children,
        Expr.same_iff left left', Expr.same_iff right right', and_assoc, and_left_comm]
    | _ => simp [Expr.same, Expr.mapConstants]
  | .assign op lval rval =>
    cases e' with
    | assign op' lval' rval' =>
      rw [Node.isNumeric_iff, Node.isNumeric_iff]
      simp [Expr.same, Expr.mapConstants, Node.fraction?, Node.children, Expr.children,
        Expr.same_iff lval lval', Expr.same_iff rval rval', and_assoc, and_left_comm]
    | _ => simp [Expr.same, Expr.mapConstants]
termination_by structural e

theorem Ty.same_iff (ty ty' : Ty) :
    ty.same ty' = true ↔ (Node.type ty).IsNumeric ∧ (Node.type ty').IsNumeric ∧
      ty.mapConstants Constant.unsignZero = ty'.mapConstants Constant.unsignZero := by
  rw [Node.isNumeric_type, Node.isNumeric_type]
  match ty, ty' with
  | ⟨base, dims⟩, ⟨base', dims'⟩ =>
    simp [Ty.same, Ty.mapConstants, Expr.sameDims_iff dims dims', and_left_comm]

theorem Expr.sameDims_iff (dims dims' : Option (List Expr)) :
    Expr.sameDims dims dims' = true ↔ (∀ e ∈ dims.getD [], (Node.expr e).IsNumeric) ∧
      (∀ e ∈ dims'.getD [], (Node.expr e).IsNumeric) ∧
      Expr.mapConstantsDims Constant.unsignZero dims =
        Expr.mapConstantsDims Constant.unsignZero dims' := by
  match dims, dims' with
  | none, none => simp [Expr.sameDims]
  | some es, some es' =>
    simp [Expr.sameDims, Expr.mapConstantsDims, Expr.sameAll_iff es es']
  | none, some _ => simp [Expr.sameDims, Expr.mapConstantsDims]
  | some _, none => simp [Expr.sameDims, Expr.mapConstantsDims]

theorem Expr.sameAll_iff (es es' : List Expr) :
    Expr.sameAll es es' = true ↔ (∀ e ∈ es, (Node.expr e).IsNumeric) ∧
      (∀ e ∈ es', (Node.expr e).IsNumeric) ∧
      Expr.mapConstantsAll Constant.unsignZero es =
        Expr.mapConstantsAll Constant.unsignZero es' := by
  match es, es' with
  | [], [] => simp [Expr.sameAll]
  | e :: es, e' :: es' =>
    simp [Expr.sameAll, Expr.mapConstantsAll, Expr.same_iff e e', Expr.sameAll_iff es es',
      and_assoc, and_left_comm]
  | [], _ :: _ => simp [Expr.sameAll, Expr.mapConstantsAll]
  | _ :: _, [] => simp [Expr.sameAll, Expr.mapConstantsAll]

end

/-! What holds of the comparison of two elements is passed on to lists of them and to what may be
missing. -/

section

variable {α : Type} {same : α → α → Bool} {numeric : α → Prop} {unsign : α → α}
  (h : ∀ x y, same x y = true ↔ numeric x ∧ numeric y ∧ unsign x = unsign y)

include h

theorem sameOption_iff (x y : Option α) :
    sameOption same x y = true ↔
      (∀ a ∈ x, numeric a) ∧ (∀ a ∈ y, numeric a) ∧ x.map unsign = y.map unsign := by
  cases x <;> cases y <;> simp [sameOption, h]

theorem sameList_iff (xs ys : List α) :
    sameList same xs ys = true ↔
      (∀ a ∈ xs, numeric a) ∧ (∀ a ∈ ys, numeric a) ∧ xs.map unsign = ys.map unsign := by
  induction xs generalizing ys with
  | nil => cases ys <;> simp [sameList]
  | cons x xs ih => cases ys <;> simp [sameList, h, ih, and_assoc, and_left_comm]

end

theorem Declarator.same_iff (d d' : Declarator) :
    d.same d' = true ↔ (Node.declarator d).IsNumeric ∧ (Node.declarator d').IsNumeric ∧
      d.mapConstants Constant.unsignZero = d'.mapConstants Constant.unsignZero := by
  rw [Node.isNumeric_iff, Node.isNumeric_iff]
  simp [Declarator.same, Declarator.mapConstants, Node.fraction?, Node.children,
    Node.isNumeric_name, sameOption_iff Expr.same_iff, and_left_comm]

theorem Declaration.same_iff (d d' : Declaration) :
    d.same d' = true ↔ (Node.declaration d).IsNumeric ∧ (Node.declaration d').IsNumeric ∧
      d.mapConstants Constant.unsignZero = d'.mapConstants Constant.unsignZero := by
  rw [Node.isNumeric_iff, Node.isNumeric_iff]
  simp [Declaration.same, Declaration.mapConstants, Node.fraction?, Node.children, Stmt.children,
    Ty.same_iff, sameList_iff Declarator.same_iff, and_assoc, and_left_comm]

mutual

theorem Stmt.same_iff (s s' : Stmt) :
    s.same s' = true ↔ (Node.stmt s).IsNumeric ∧ (Node.stmt s').IsNumeric ∧
      s.mapConstants Constant.unsignZero = s'.mapConstants Constant.unsignZero := by
  match s with
  | .brk | .cont =>
    rw [Node.isNumeric_iff, Node.isNumeric_iff]
    cases s' <;> simp [Stmt.same, Stmt.mapConstants, Node.fraction?, Node.children, Stmt.children]
  | .ret value =>
    cases s' with
    | ret value' =>
      rw [Node.isNumeric_iff, Node.isNumeric_iff]
      simp [Stmt.same, Stmt.mapConstants, Node.fraction?, Node.children, Stmt.children,
        sameOption_iff Expr.same_iff]
    | _ => simp [Stmt.same, Stmt.mapConstants]
  | .block stats =>
    cases s' with
    | block stats' =>
      rw [Node.isNumeric_iff, Node.isNumeric_iff]
      simp [Stmt.same, Stmt.mapConstants, Node.fraction?, Node.children, Stmt.children,
        Stmt.sameAll_iff stats stats']
    | _ => simp [Stmt.same, Stmt.mapConstants]
  | .expr e =>
    cases s' with
    | expr e' =>
      rw [Node.isNumeric_iff, Node.isNumeric_iff]
      simp [Stmt.same, Stmt.mapConstants, Node.fraction?, Node.children, Stmt.children,
        Expr.same_iff]
    | _ => simp [Stmt.same, Stmt.mapConstants]
  | .decl d =>
    cases s' with
    | decl d' => simp [Stmt.same, Stmt.mapConstants, Declaration.same_iff]
    | _ => simp [Stmt.same, Stmt.mapConstants]
  | .ite condition thenBranch elseBranch =>
    cases s' with
    | ite condition' thenBranch' elseBranch' =>
      rw [Node.isNumeric_iff, Node.isNumeric_iff]
      simp [Stmt.same, Stmt.mapConstants, Node.fraction?, Node.children, Stmt.children,
        Expr.same_iff, Stmt.same_iff thenBranch thenBranch',
        Stmt.sameBranch_iff elseBranch elseBranch', and_assoc, and_left_comm]
    | _ => simp [Stmt.same, Stmt.mapConstants]
  | .loop condition body =>
    cases s' with
    | loop condition' body' =>
      rw [Node.isNumeric_iff, Node.isNumeric_iff]
      simp [Stmt.same, Stmt.mapConstants, Node.fraction?, Node.children, Stmt.children,
        Expr.same_iff, Stmt.same_iff body body', and_assoc, and_left_comm]
    | _ => simp [Stmt.same, Stmt.mapConstants]
termination_by structural s

theorem Stmt.sameBranch_iff (branch branch' : Option Stmt) :
    Stmt.sameBranch branch branch' = true ↔ (∀ s ∈ branch, (Node.stmt s).IsNumeric) ∧
      (∀ s ∈ branch', (Node.stmt s).IsNumeric) ∧
      Stmt.mapConstantsBranch Constant.unsignZero branch =
        Stmt.mapConstantsBranch Constant.unsignZero branch' := by
  match branch, branch' with
  | none, none => simp [Stmt.sameBranch]
  | some s, some s' =>
    simp [Stmt.sameBranch, Stmt.mapConstantsBranch, Stmt.same_iff s s']
  | none, some _ => simp [Stmt.sameBranch, Stmt.mapConstantsBranch]
  | some _, none => simp [Stmt.sameBranch, Stmt.mapConstantsBranch]

theorem Stmt.sameAll_iff (ss ss' : List Stmt) :
    Stmt.sameAll ss ss' = true ↔ (∀ s ∈ ss, (Node.stmt s).IsNumeric) ∧
      (∀ s ∈ ss', (Node.stmt s).IsNumeric) ∧
      Stmt.mapConstantsAll Constant.unsignZero ss =
        Stmt.mapConstantsAll Constant.unsignZero ss' := by
  match ss, ss' with
  | [], [] => simp [Stmt.sameAll]
  | s :: ss, s' :: ss' =>
    simp [Stmt.sameAll, Stmt.mapConstantsAll, Stmt.same_iff s s', Stmt.sameAll_iff ss ss',
      and_assoc, and_left_comm]
  | [], _ :: _ => simp [Stmt.sameAll, Stmt.mapConstantsAll]
  | _ :: _, [] => simp [Stmt.sameAll, Stmt.mapConstantsAll]

end

theorem Parameter.same_iff (p p' : Parameter) :
    p.same p' = true ↔ (Node.parameter p).IsNumeric ∧ (Node.parameter p').IsNumeric ∧
      p.mapConstants Constant.unsignZero = p'.mapConstants Constant.unsignZero := by
  rw [Node.isNumeric_iff, Node.isNumeric_iff]
  simp [Parameter.same, Parameter.mapConstants, Node.fraction?, Node.children,
    Node.isNumeric_name, Ty.same_iff, and_assoc]

theorem Header.same_iff (h h' : Header) :
    h.same h' = true ↔ (Node.header h).IsNumeric ∧ (Node.header h').IsNumeric ∧
      h.mapConstants Constant.unsignZero = h'.mapConstants Constant.unsignZero := by
  rw [Node.isNumeric_iff, Node.isNumeric_iff]
  simp [Header.same, Header.mapConstants, Node.fraction?, Node.children, Node.isNumeric_name,
    Ty.same_iff, sameList_iff Parameter.same_iff, and_assoc, and_left_comm]

/-- Two trees are the same exactly when all their payloads are numbers and they are identical but
for the signs of zeros. -/
theorem Node.same_iff (a b : Node) :
    a.same b = true ↔ a.IsNumeric ∧ b.IsNumeric ∧ a.unsignZeros = b.unsignZeros := by
  rw [Node.unsignZeros, Node.unsignZeros]
  cases a with
  | expr e => cases b <;> simp [Node.same, Node.mapConstants, Expr.same_iff]
  | stmt s => cases b <;> simp [Node.same, Node.mapConstants, Stmt.same_iff]
  | type ty => cases b <;> simp [Node.same, Node.mapConstants, Ty.same_iff]
  | declarator d => cases b <;> simp [Node.same, Node.mapConstants, Declarator.same_iff]
  | parameter p => cases b <;> simp [Node.same, Node.mapConstants, Parameter.same_iff]
  | header h => cases b <;> simp [Node.same, Node.mapConstants, Header.same_iff]
  | function f =>
    cases b with
    | function f' =>
      rw [Node.isNumeric_iff, Node.isNumeric_iff]
      simp [Node.same, FunctionDecl.same, Node.mapConstants, Node.fraction?, Node.children,
        Header.same_iff, Stmt.sameAll_iff, Node.isNumeric_iff (.block _), Stmt.children,
        and_assoc, and_left_comm]
    | _ => simp [Node.same, Node.mapConstants]
  | struct s =>
    cases b with
    | struct s' =>
      rw [Node.isNumeric_iff, Node.isNumeric_iff]
      simp [Node.same, StructDecl.same, Node.mapConstants, Node.fraction?, Node.children,
        Node.isNumeric_name, sameList_iff Declaration.same_iff, and_left_comm]
    | _ => simp [Node.same, Node.mapConstants]

/-! ## The check does not see the signs of zeros -/

theorem Primitive.inRange_unsignZero (kind : Primitive) (value : Double) :
    kind.inRange value.unsignZero = kind.inRange value := by
  have magnitude : value.unsignZero.magnitude = value.magnitude := by
    rw [Binary.unsignZero]
    split <;> rfl
  simp only [Primitive.inRange, Binary.isFinite, magnitude]

theorem Constant.validate_unsignZero (c : Constant) :
    c.unsignZero.validate.mapError TreeError.name = c.validate.mapError TreeError.name := by
  obtain ⟨kind, value⟩ := c
  cases value with
  | int value => rfl
  | float value =>
    simp only [Constant.unsignZero, Scalar.unsignZero, Constant.validate,
      Primitive.inRange_unsignZero]
    -- The text of the number differs, but the name of the error does not.
    cases kind.isFloating <;> cases kind.inRange value <;> simp [Except.mapError, TreeError.name]

theorem Node.violation?_unsignZeros (n : Node) :
    n.unsignZeros.violation?.map TreeError.name = n.violation?.map TreeError.name := by
  cases n with
  | expr e =>
    cases e with
    | const c =>
      have h := c.validate_unsignZero
      simp only [Node.unsignZeros, Node.mapConstants, Expr.mapConstants, Node.violation?,
        Constant.violation?]
      cases hc : c.validate <;> cases hc' : c.unsignZero.validate <;>
        simp_all [Except.mapError]
    | _ => rfl
  | stmt s =>
    cases s with
    | decl d =>
      obtain ⟨ty, declarators⟩ := d
      cases declarators <;>
        simp [Node.unsignZeros, Node.mapConstants, Stmt.mapConstants, Declaration.mapConstants,
          Node.violation?, TreeError.name]
    | _ => rfl
  | _ => rfl

theorem Node.violations_unsignZeros (n : Node) :
    n.unsignZeros.violations.map TreeError.name = n.violations.map TreeError.name := by
  apply Node.induction
    (Q := fun n => n.unsignZeros.violations.map TreeError.name = n.violations.map TreeError.name)
    ?_ n
  intro n ih
  have own : n.unsignZeros.violation?.toList.map TreeError.name =
      n.violation?.toList.map TreeError.name := by
    rw [← Option.toList_map, Node.violation?_unsignZeros, Option.toList_map]
  have below : n.unsignZeros.children = n.children.map Node.unsignZeros :=
    n.children_mapConstants Constant.unsignZero
  rw [Node.violations_eq, Node.violations_eq n, List.map_append, List.map_append, own, below,
    List.flatMap_map, List.map_flatMap, List.map_flatMap, List.flatMap_congr ih]

theorem firstOf_mapError_congr {α : Type} {f : TreeError → α} {es es' : List TreeError}
    (h : es.map f = es'.map f) : (firstOf es).mapError f = (firstOf es').mapError f := by
  cases es <;> cases es' <;> simp_all [firstOf, Except.mapError]

/-- The check accepts both trees, or refuses both with errors of the same name. -/
theorem Node.check_unsignZeros (n : Node) :
    n.unsignZeros.check.mapError TreeError.name = n.check.mapError TreeError.name := by
  rw [Node.check_eq_first, Node.check_eq_first]
  exact firstOf_mapError_congr n.violations_unsignZeros

/-! ## Equality as a relation -/

theorem Node.same_comm (a b : Node) : a.same b = b.same a := by
  rw [Bool.eq_iff_iff, Node.same_iff, Node.same_iff, eq_comm]
  exact and_left_comm

theorem Node.same_trans {a b c : Node} (hab : a.same b = true) (hbc : b.same c = true) :
    a.same c = true := by
  rw [Node.same_iff] at hab hbc ⊢
  exact ⟨hab.1, hbc.2.1, hab.2.2.trans hbc.2.2⟩

/-- A tree is the same as itself unless it holds what is no number. -/
theorem Node.same_self_eq_false_iff (a : Node) :
    a.same a = false ↔ ∃ x ∈ a.fractions, x.isNaN = true := by
  rw [← Bool.not_eq_true, Node.same_iff]
  simp [Node.IsNumeric]

theorem Node.agree_of_same {a b : Node} (h : a.same b = true) :
    a.kind = b.kind ∧ a.release = b.release ∧
      a.check.mapError TreeError.name = b.check.mapError TreeError.name := by
  obtain ⟨-, -, heq⟩ := (Node.same_iff a b).mp h
  have kind (n : Node) : n.unsignZeros.kind = n.kind := n.kind_mapConstants _
  have release (n : Node) : n.unsignZeros.release = n.release := n.release_mapConstants _
  refine ⟨?_, ?_, ?_⟩
  · rw [← kind a, heq, kind b]
  · rw [← release a, heq, release b]
  · rw [← a.check_unsignZeros, heq, b.check_unsignZeros]

/-- Equality of trees is identity up to the signs of zeros, and a tree that holds what is no number
is the same as nothing. It tells whole payloads from fractional ones and a type without dimensions
from an array with an empty list of them, it is symmetric and transitive, and it is reflexive but
for trees that hold what is no number. Trees that are the same have the same kind and release the
same kinds of nodes, and the check accepts both or refuses both with errors of the same name. -/
theorem same_iff_up_to_zero_signs :
    (∀ a b : Node,
      a.same b = true ↔ a.IsNumeric ∧ b.IsNumeric ∧ a.unsignZeros = b.unsignZeros) ∧
    (∀ (kind kind' : Primitive) (i : Int64) (x : Double),
      Node.same (.expr (.const ⟨kind, .int i⟩)) (.expr (.const ⟨kind', .float x⟩)) = false) ∧
    (∀ base base' : TypeBase, Node.same (.type ⟨base, none⟩) (.type ⟨base', some []⟩) = false) ∧
    (∀ a b : Node, a.same b = b.same a) ∧
    (∀ a b c : Node, a.same b = true → b.same c = true → a.same c = true) ∧
    (∀ a : Node, a.same a = false ↔ ∃ x ∈ a.fractions, x.isNaN = true) ∧
    ∀ a b : Node, a.same b = true →
      a.kind = b.kind ∧ a.release = b.release ∧
        a.check.mapError TreeError.name = b.check.mapError TreeError.name := by
  refine ⟨Node.same_iff, ?_, ?_, Node.same_comm, ?_, Node.same_self_eq_false_iff, ?_⟩
  · simp [Node.same, Expr.same, Constant.same, Scalar.same]
  · simp [Node.same, Ty.same, Expr.sameDims]
  · exact fun a b c => Node.same_trans
  · exact fun a b => Node.agree_of_same

/-- Empty declarations of arrays whose sizes are zeros of different signs are the same, although the
check reports them with different texts; with a size that is no number, not even one and the same
declaration is. -/
theorem same_iff_up_to_zero_signs_array :
    let array (bits : Nat) : Node :=
      .declaration ⟨⟨.primitive .int, some [.const (.double (.ofBits .double bits))]⟩, []⟩
    let negative := array 0x8000000000000000
    let positive := array 0
    let missing := array 0x7ff8000000000000
    negative.same positive = true ∧ positive.same negative = true ∧
    negative.same negative = true ∧ missing.same missing = false ∧
    negative.release = positive.release ∧
    negative.check = .error (.emptyDeclaration "int[-0D]") ∧
    positive.check = .error (.emptyDeclaration "int[0D]") ∧
    negative.check.mapError TreeError.name = positive.check.mapError TreeError.name := by
  intro array negative positive missing
  obtain ⟨-, -, -, comm, trans, self, agree⟩ := same_iff_up_to_zero_signs
  have hsame : negative.same positive = true := by decide +kernel
  have hsame' : positive.same negative = true := (comm _ _).symm.trans hsame
  have hfractions : missing.fractions = [.ofBits .double 0x7ff8000000000000] := by decide +kernel
  have hmissing : missing.same missing = false :=
    (self _).mpr ⟨_, by rw [hfractions]; exact List.mem_singleton_self _, by decide +kernel⟩
  obtain ⟨-, hrelease, hcheck⟩ := agree _ _ hsame
  exact ⟨hsame, hsame', trans _ _ _ hsame hsame', hmissing, hrelease, by decide +kernel,
    by decide +kernel, hcheck⟩

end SyntaxForest
