import SyntaxForest.Session.Inspect
import SyntaxForest.Tree.Walk

/-!
# What properties show of a node

The texts in the properties of a node are the word that the node holds by itself, if it holds one,
and then its parts: each of them once, with its source text and in source order (`Node.shown_eq`).
-/

namespace SyntaxForest

/-- The texts in the value of a property. -/
def Property.shown : Property → List String
  | .text value => [value]
  | .texts values => values
  | .optionalText value => value.toList
  | .optionalTexts values => values.getD []
  | .flag _ => []
  | .payload _ => []

/-- The texts in all properties of a node. -/
def Node.shown (n : Node) : List String := n.properties.flatMap (·.2.shown)

/-- The word that a node holds besides its parts: a name, an operator or a primitive kind. -/
def Node.word? : Node → Option String
  | .expr (.ident id) => some id
  | .expr (.const c) => some c.kind.keyword
  | .expr (.unary op _) => some op.symbol
  | .expr (.binary op _ _) => some op.symbol
  | .expr (.assign op _ _) => some op.symbol
  | .type ⟨.primitive kind, _⟩ => some kind.keyword
  | _ => none

theorem Node.render_expr (e : Expr) : (Node.expr e).render = e.render := rfl

theorem Node.render_type (ty : Ty) : (Node.type ty).render = ty.render := rfl

theorem Expr.render_ident (id : String) : (Expr.ident id).render = id := String.empty_append

theorem Expr.shown_eq (e : Expr) :
    (Node.expr e).shown = (Node.expr e).word?.toList ++ e.children.map Node.render := by
  cases e <;>
    simp [Node.shown, Node.properties, Expr.properties, Property.shown, Node.word?, Expr.children,
      Node.render_expr, Node.render_type]

theorem Stmt.shown_eq (s : Stmt) : (Node.stmt s).shown = s.children.map Node.render := by
  cases s <;>
    simp [Node.shown, Node.properties, Stmt.properties, Property.shown, Stmt.children,
      Node.render_expr, Node.render_type, Option.toList_map, Function.comp_def]

/-- A reference shows the name it refers to as its base. -/
theorem Ty.shown_eq (ty : Ty) :
    (Node.type ty).shown = (Node.type ty).word?.toList ++ ty.children.map Node.render := by
  obtain ⟨base, dims⟩ := ty
  cases base <;> cases dims <;>
    simp [Node.shown, Node.properties, Property.shown, Node.word?, Ty.children, TypeBase.text,
      Node.render_expr, Expr.render_ident]

/-- Inspecting a node shows its word and its parts, and nothing else. -/
theorem Node.shown_eq (n : Node) :
    n.shown = n.word?.toList ++ n.children.map Node.render := by
  cases n with
  | expr e => exact e.shown_eq
  | stmt s => exact s.shown_eq
  | type ty => exact ty.shown_eq
  | _ =>
    simp [Node.shown, Node.properties, Property.shown, Node.word?, Node.children, Node.render_expr,
      Node.render_type, Expr.render_ident, Option.toList_map, Function.comp_def]

end SyntaxForest
