import SyntaxForest.Document.Json
import SyntaxForest.Document.Shape

/-!
# Encoding

The document value of a tree. Every record is an object with its fields in order and every variant
an object with one member. A type that is no array has no member for its dimensions; any other part
that may be missing is written as null.
-/

namespace SyntaxForest

open Document

/-- A value that is written as null when it is missing. -/
def Document.Json.ofOption : Option Json → Json
  | none => .null
  | some j => j

/-- A named variant with a payload. -/
def Document.Json.variant (tag : String) (payload : Json) : Json := .object [(tag, payload)]

def Scalar.toJson : Scalar → Json
  | .int value => .int value.toInt
  | .float value => .float value

def Constant.toJson (c : Constant) : Json :=
  .object [("kind", .text c.kind.keyword), ("value", c.value.toJson)]

def TypeBase.toJson : TypeBase → Json
  | .primitive kind => .variant "Primitive" (.text kind.keyword)
  | .reference id => .variant "Reference" (.text id)

/-! ## Expressions and types -/

/-- The name of the variant that an expression is. -/
def Expr.tag (e : Expr) : String := e.kind.name

mutual

/-- An expression without the name of its variant. -/
def Expr.payload : Expr → Json
  | .ident id => .text id
  | .const c => c.toJson
  | .call func args => .object
      [("func", .variant func.tag func.payload), ("args", .array (Expr.toJsons args))]
  | .index var idx => .object
      [("var", .variant var.tag var.payload), ("idx", .variant idx.tag idx.payload)]
  | .access var field => .object
      [("var", .variant var.tag var.payload), ("field", .variant field.tag field.payload)]
  | .cast ty e => .object [("type", ty.toJson), ("expr", .variant e.tag e.payload)]
  | .unary op e => .object [("op", .text op.name), ("expr", .variant e.tag e.payload)]
  | .binary op left right => .object
      [("op", .text op.name), ("left", .variant left.tag left.payload),
        ("right", .variant right.tag right.payload)]
  | .assign op lval rval => .object
      [("op", .text op.name), ("lval", .variant lval.tag lval.payload),
        ("rval", .variant rval.tag rval.payload)]

def Ty.toJson : Ty → Json
  | ⟨base, dims⟩ => .object (("base", base.toJson) :: Expr.dimsMember dims)

/-- The member for the dimensions of a type, if it has any. -/
def Expr.dimsMember : Option (List Expr) → List (String × Json)
  | none => []
  | some es => [("dims", .array (Expr.toJsons es))]

/-- Several expressions, each with the name of its variant. -/
def Expr.toJsons : List Expr → List Json
  | [] => []
  | e :: es => .variant e.tag e.payload :: Expr.toJsons es

end

def Expr.toJson (e : Expr) : Json := .variant e.tag e.payload

/-! ## Statements -/

def Declarator.toJson (d : Declarator) : Json :=
  .object [("id", .text d.id), ("init", .ofOption (d.init.map Expr.toJson))]

def Declaration.toJson (d : Declaration) : Json :=
  .object [("type", d.ty.toJson), ("declarators", .array (d.declarators.map Declarator.toJson))]

/-- The name of the variant that a statement is. -/
def Stmt.tag : Stmt → String
  | .ite _ _ _ => "If"
  | .loop _ _ => "While"
  | s => s.kind.name

mutual

/-- A statement without the name of its variant. -/
def Stmt.payload : Stmt → Json
  | .brk => .null
  | .cont => .null
  | .ret value => .object [("value", .ofOption (value.map Expr.toJson))]
  | .block stats => .object [("stats", .array (Stmt.toJsons stats))]
  | .expr e => .object [("expr", e.toJson)]
  | .decl d => d.toJson
  | .ite condition thenBranch elseBranch => .object
      [("condition", condition.toJson),
        ("then_branch", .variant thenBranch.tag thenBranch.payload),
        ("else_branch", Stmt.branchJson elseBranch)]
  | .loop condition body => .object
      [("condition", condition.toJson), ("body", .variant body.tag body.payload)]

/-- A branch, or null if it is missing. -/
def Stmt.branchJson : Option Stmt → Json
  | none => .null
  | some s => .variant s.tag s.payload

/-- Several statements, each with the name of its variant. -/
def Stmt.toJsons : List Stmt → List Json
  | [] => []
  | s :: ss => .variant s.tag s.payload :: Stmt.toJsons ss

end

def Stmt.toJson (s : Stmt) : Json := .variant s.tag s.payload

/-! ## Other nodes -/

def Parameter.toJson (p : Parameter) : Json :=
  .object [("type", p.ty.toJson), ("id", .text p.id)]

def Header.toJson (h : Header) : Json :=
  .object
    [("type", h.ty.toJson), ("id", .text h.id), ("params", .array (h.params.map Parameter.toJson))]

/-- The body of a function is written as a block without the name of its variant. -/
def FunctionDecl.toJson (f : FunctionDecl) : Json :=
  .object [("header", f.header.toJson), ("body", (Stmt.block f.body).payload)]

def StructDecl.toJson (s : StructDecl) : Json :=
  .object [("id", .text s.id), ("fields", .array (s.fields.map Declaration.toJson))]

/-- The name of the variant that a node is. -/
def Node.tag : Node → String
  | .expr _ => "Expression"
  | .stmt _ => "Statement"
  | n => n.kind.name

/-- A node without the name of its variant. -/
def Node.payload : Node → Json
  | .expr e => e.toJson
  | .stmt s => s.toJson
  | .type ty => ty.toJson
  | .declarator d => d.toJson
  | .parameter p => p.toJson
  | .header h => h.toJson
  | .function f => f.toJson
  | .struct s => s.toJson

def Node.toJson (n : Node) : Json := .variant n.tag n.payload

/-- A node by itself: an expression or statement without the name of its variant. -/
def Node.bareJson : Node → Json
  | .expr e => e.payload
  | .stmt s => s.payload
  | n => n.payload

end SyntaxForest
