import SyntaxForest.Tree.Build

/-!
# Properties of nodes

What a node says about itself: its own data, and the source texts of its parts.
-/

namespace SyntaxForest

/-- The value of one property of a node. -/
inductive Property
  | text (value : String)
  | texts (values : List String)
  | optionalText (value : Option String)
  | optionalTexts (values : Option (List String))
  | flag (value : Bool)
  | payload (value : Scalar)

def TypeBase.text : TypeBase → String
  | .primitive kind => kind.keyword
  | .reference id => id

def Expr.properties : Expr → List (String × Property)
  | .ident id => [("name", .text id)]
  | .const c =>
    [("kind", .text c.kind.keyword), ("value", .payload c.value), ("is_zero", .flag c.value.isZero)]
  | .call func args => [("func", .text func.render), ("args", .texts (args.map Expr.render))]
  | .index var idx => [("var", .text var.render), ("idx", .text idx.render)]
  | .access var field => [("var", .text var.render), ("field", .text field.render)]
  | .cast ty e => [("type", .text ty.render), ("expr", .text e.render)]
  | .unary op e => [("op", .text op.symbol), ("expr", .text e.render)]
  | .binary op left right =>
    [("op", .text op.symbol), ("left", .text left.render), ("right", .text right.render)]
  | .assign op lval rval =>
    [("op", .text op.symbol), ("lval", .text lval.render), ("rval", .text rval.render)]

def Stmt.properties : Stmt → List (String × Property)
  | .brk => []
  | .cont => []
  | .ret value => [("value", .optionalText (value.map Expr.render))]
  | .block stats => [("stats", .texts (stats.map fun s => (Node.stmt s).render))]
  | .expr e => [("expr", .text e.render)]
  | .decl d =>
    [("type", .text d.ty.render),
      ("declarators", .texts (d.declarators.map fun d => (Node.declarator d).render))]
  | .ite condition thenBranch elseBranch =>
    [("condition", .text condition.render), ("then", .text (Node.stmt thenBranch).render),
      ("else", .optionalText (elseBranch.map fun s => (Node.stmt s).render))]
  | .loop condition body =>
    [("condition", .text condition.render), ("body", .text (Node.stmt body).render)]

/-- The properties of a node. -/
def Node.properties : Node → List (String × Property)
  | .expr e => e.properties
  | .stmt s => s.properties
  | .type ty =>
    [("is_primitive", .flag ty.isPrimitive), ("base", .text ty.base.text),
      ("dims", .optionalTexts (ty.dims.map (·.map Expr.render)))]
  | .declarator d => [("id", .text d.id), ("init", .optionalText (d.init.map Expr.render))]
  | .parameter p => [("type", .text p.ty.render), ("id", .text p.id)]
  | .header h =>
    [("type", .text h.ty.render), ("id", .text h.id),
      ("params", .texts (h.params.map fun p => (Node.parameter p).render))]
  | .function f =>
    [("header", .text (Node.header f.header).render), ("body", .text (Node.block f.body).render)]
  | .struct s =>
    [("id", .text s.id),
      ("fields", .texts (s.fields.map fun d => (Node.declaration d).render))]

end SyntaxForest
