import SyntaxForest.Numeric.Binary
import SyntaxForest.Tree.Operator

/-!
# Syntax trees

Expressions and types refer to each other, since an array type carries the sizes of its dimensions
and a cast carries a type; statements stand above both. A `Node` is any part of a program taken by
itself, and a forest is a list of nodes.
-/

namespace SyntaxForest

open Numeric

/-- The payload of a literal. How it reads is decided by the kind of the constant that holds it. -/
inductive Scalar
  | int (value : Int64)
  | float (value : Double)
  deriving DecidableEq

/-- Whether the payload is zero, of either sign. -/
def Scalar.isZero : Scalar → Bool
  | int value => value == 0
  | float value => value.isZero

/-- A literal. -/
structure Constant where
  kind : Primitive
  value : Scalar
  deriving DecidableEq

/-- What a type is, apart from its dimensions. -/
inductive TypeBase
  | primitive (kind : Primitive)
  | reference (name : String)
  deriving DecidableEq

mutual

/-- Expressions. -/
inductive Expr
  | ident (name : String)
  | const (constant : Constant)
  | call (func : Expr) (args : List Expr)
  | index (var idx : Expr)
  | access (var field : Expr)
  | cast (ty : Ty) (expr : Expr)
  | unary (op : UnaryOp) (expr : Expr)
  | binary (op : BinaryOp) (left right : Expr)
  | assign (op : AssignOp) (lval rval : Expr)

/-- Types. The dimensions are the sizes of an array; a type without any is not an array, which is
not the same as an array with an empty list of sizes. -/
structure Ty where
  base : TypeBase
  dims : Option (List Expr)

end

/-- One declared name and its initial value. -/
structure Declarator where
  id : String
  init : Option Expr

/-- A type and the names declared to have it. -/
structure Declaration where
  ty : Ty
  declarators : List Declarator

/-- Statements. -/
inductive Stmt
  | brk
  | cont
  | ret (value : Option Expr)
  | block (stats : List Stmt)
  | expr (expr : Expr)
  | decl (declaration : Declaration)
  | ite (condition : Expr) (thenBranch : Stmt) (elseBranch : Option Stmt)
  | loop (condition : Expr) (body : Stmt)

/-- A parameter of a function. -/
structure Parameter where
  ty : Ty
  id : String

/-- The result type, name and parameters of a function. -/
structure Header where
  ty : Ty
  id : String
  params : List Parameter

/-- A function: its header and the statements of its body. -/
structure FunctionDecl where
  header : Header
  body : List Stmt

/-- A structure type: its name and the declarations of its fields. -/
structure StructDecl where
  id : String
  fields : List Declaration

/-- A part of a program, taken by itself. A name is a node as an expression, a block as a
statement. -/
inductive Node
  | expr (expr : Expr)
  | stmt (stmt : Stmt)
  | type (ty : Ty)
  | declarator (declarator : Declarator)
  | parameter (parameter : Parameter)
  | header (header : Header)
  | function (function : FunctionDecl)
  | struct (struct : StructDecl)

/-- The node of a name. -/
abbrev Node.name (id : String) : Node := .expr (.ident id)

/-- The node of a block. -/
abbrev Node.block (stats : List Stmt) : Node := .stmt (.block stats)

/-- The node of a declaration. -/
abbrev Node.declaration (d : Declaration) : Node := .stmt (.decl d)

end SyntaxForest
