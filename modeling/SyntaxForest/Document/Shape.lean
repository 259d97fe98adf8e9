import SyntaxForest.Tree.Kind

/-!
# Shapes

What may stand at a place of a document. Every shape has a carrier, the type of the values that are
read there, and a form, which says how such a value is written: as a quoted text, as one of several
named variants, as a record of named fields, or as a list.

The forms of all shapes together are the format of forest documents. A form refers to the shapes of
its parts by name, so the table is finite although trees are not.
-/

namespace SyntaxForest.Document

/-- What may stand at a place of a document. -/
inductive Shape
  | name
  | any
  | scalar
  | primitive
  | unaryOp
  | binaryOp
  | assignOp
  | kind
  | typeBase
  | type
  | constant
  | call
  | index
  | access
  | cast
  | unary
  | binary
  | assign
  | brk
  | cont
  | ret
  | block
  | exprStmt
  | declarator
  | declaration
  | ite
  | loop
  | parameter
  | header
  | function
  | struct
  | expr
  | stmt
  | node
  | list (item : Shape)
  deriving DecidableEq

/-- The type of what is read at a place of the shape. Of a value of any shape only a number is
kept. -/
@[reducible]
def Shape.Carrier : Shape → Type
  | name => String
  | any => Option Scalar
  | scalar => Scalar
  | primitive => Primitive
  | unaryOp => UnaryOp
  | binaryOp => BinaryOp
  | assignOp => AssignOp
  | kind => Kind
  | typeBase => TypeBase
  | type => Ty
  | constant => Constant
  | call | index | access | cast | unary | binary | assign => Expr
  | brk | cont | ret => Stmt
  | block => List Stmt
  | exprStmt => Stmt
  | declarator => Declarator
  | declaration => Declaration
  | ite | loop => Stmt
  | parameter => Parameter
  | header => Header
  | function => FunctionDecl
  | struct => StructDecl
  | expr => Expr
  | stmt => Stmt
  | node => Node
  | list item => List item.Carrier

/-- A field of a record. One that is optional may be missing or null. -/
inductive Field
  | required (name : String) (shape : Shape)
  | optional (name : String) (shape : Shape)

namespace Field

/-- The key of a field. -/
def name : Field → String
  | required name _ => name
  | optional name _ => name

/-- The type of what a field holds. -/
@[reducible]
def Carrier : Field → Type
  | required _ shape => shape.Carrier
  | optional _ shape => Option shape.Carrier

end Field

/-- What the fields of a record hold. -/
@[reducible]
def Values : List Field → Type
  | [] => Unit
  | field :: fields => field.Carrier × Values fields

/-- One of the named alternatives for a value: the name alone, or the name and a payload. -/
inductive Variant (α : Type)
  | unit (tag : String) (value : α)
  | data (tag : String) (shape : Shape) (make : shape.Carrier → α)

/-- The name of an alternative. -/
def Variant.tag {α : Type} : Variant α → String
  | unit tag _ => tag
  | data tag _ _ => tag

/-- How values of a type are written. -/
inductive Form (α : Type)
  | text (make : String → α)
  | any (make : Option Scalar → α)
  | scalar (make : Scalar → α)
  | unit (name : String) (value : α)
  | variants (table : List (Variant α))
  | record (name : String) (fields : List Field) (make : Values fields → α)
  | list (item : Shape) (make : List item.Carrier → α)

/-- The form of values that are written as one of several names. -/
def Form.names {α : Type} (all : List α) (name : α → String) : Form α :=
  .variants (all.map fun a => .unit (name a) a)

/-- How the values of a shape are written. -/
def Shape.form : (s : Shape) → Form s.Carrier
  | name => .text id
  | any => .any id
  | scalar => .scalar id
  | primitive => .names Primitive.all Primitive.keyword
  | unaryOp => .names UnaryOp.all UnaryOp.name
  | binaryOp => .names BinaryOp.all BinaryOp.name
  | assignOp => .names AssignOp.all AssignOp.name
  | kind => .names Kind.all Kind.name
  | typeBase => .variants
      [.data "Primitive" .primitive TypeBase.primitive, .data "Reference" .name TypeBase.reference]
  | type => .record "Type" [.required "base" .typeBase, .optional "dims" (.list .expr)]
      fun (base, dims, ()) => ⟨base, dims⟩
  | constant => .record "Constant" [.required "kind" .primitive, .required "value" .scalar]
      fun (ofKind, value, ()) => ⟨ofKind, value⟩
  | call => .record "FunctionCall" [.required "func" .expr, .required "args" (.list .expr)]
      fun (func, args, ()) => .call func args
  | index => .record "IndexOf" [.required "var" .expr, .required "idx" .expr]
      fun (var, idx, ()) => .index var idx
  | access => .record "Access" [.required "var" .expr, .required "field" .expr]
      fun (var, field, ()) => .access var field
  | cast => .record "TypeCast" [.required "type" .type, .required "expr" .expr]
      fun (ty, operand, ()) => .cast ty operand
  | unary => .record "UnaOp" [.required "op" .unaryOp, .required "expr" .expr]
      fun (op, operand, ()) => .unary op operand
  | binary => .record "BinOp"
      [.required "op" .binaryOp, .required "left" .expr, .required "right" .expr]
      fun (op, left, right, ()) => .binary op left right
  | assign => .record "Assign"
      [.required "op" .assignOp, .required "lval" .expr, .required "rval" .expr]
      fun (op, lval, rval, ()) => .assign op lval rval
  | brk => .unit "Break" .brk
  | cont => .unit "Continue" .cont
  | ret => .record "Return" [.optional "value" .expr]
      fun (value, ()) => .ret value
  | block => .record "Block" [.required "stats" (.list .stmt)]
      fun (stats, ()) => stats
  | exprStmt => .record "ExpStatement" [.required "expr" .expr]
      fun (value, ()) => .expr value
  | declarator => .record "Declarator" [.required "id" .name, .optional "init" .expr]
      fun (id, init, ()) => ⟨id, init⟩
  | declaration => .record "Declaration"
      [.required "type" .type, .required "declarators" (.list .declarator)]
      fun (ty, declarators, ()) => ⟨ty, declarators⟩
  | ite => .record "IfStatement"
      [.required "condition" .expr, .required "then_branch" .stmt, .optional "else_branch" .stmt]
      fun (condition, thenBranch, elseBranch, ()) => .ite condition thenBranch elseBranch
  | loop => .record "WhileStatement" [.required "condition" .expr, .required "body" .stmt]
      fun (condition, body, ()) => .loop condition body
  | parameter => .record "FormalParameter" [.required "type" .type, .required "id" .name]
      fun (ty, id, ()) => ⟨ty, id⟩
  | header => .record "FunctionHeader"
      [.required "type" .type, .required "id" .name, .required "params" (.list .parameter)]
      fun (ty, id, params, ()) => ⟨ty, id, params⟩
  | function => .record "FunctionDeclaration"
      [.required "header" .header, .required "body" .block]
      fun (head, body, ()) => ⟨head, body⟩
  | struct => .record "StructDeclaration"
      [.required "id" .name, .required "fields" (.list .declaration)]
      fun (id, fields, ()) => ⟨id, fields⟩
  | expr => .variants
      [.data "Identifier" .name Expr.ident, .data "Constant" .constant Expr.const,
        .data "FunctionCall" .call id, .data "IndexOf" .index id, .data "Access" .access id,
        .data "TypeCast" .cast id, .data "UnaOp" .unary id, .data "BinOp" .binary id,
        .data "Assign" .assign id]
  | stmt => .variants
      [.data "Break" .brk id, .data "Continue" .cont id, .data "Return" .ret id,
        .data "Block" .block Stmt.block, .data "ExpStatement" .exprStmt id,
        .data "Declaration" .declaration Stmt.decl, .data "If" .ite id, .data "While" .loop id]
  | node => .variants
      [.data "Expression" .expr Node.expr, .data "Statement" .stmt Node.stmt,
        .data "Type" .type Node.type, .data "Declarator" .declarator Node.declarator,
        .data "FormalParameter" .parameter Node.parameter,
        .data "FunctionHeader" .header Node.header,
        .data "FunctionDeclaration" .function Node.function,
        .data "StructDeclaration" .struct Node.struct]
  | list item => .list item id

end SyntaxForest.Document
