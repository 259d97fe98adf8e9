import SyntaxForest.Tree.Basic

/-!
# Kinds of nodes

Every node has one of 23 kinds: one for each form of expression and statement, and one for each of
the other parts of a program.
-/

namespace SyntaxForest

/-- The kinds of nodes. -/
inductive Kind
  | identifier
  | type
  | constant
  | call
  | index
  | access
  | cast
  | unary
  | binary
  | assign
  | brk
  | cont
  | ret
  | block
  | expr
  | declarator
  | declaration
  | ite
  | loop
  | parameter
  | header
  | function
  | struct
  deriving DecidableEq, Repr

namespace Kind

/-- All kinds, in the order in which faults list them. -/
def all : List Kind :=
  [identifier, type, constant, call, index, access, cast, unary, binary, assign, brk, cont, ret,
    block, expr, declarator, declaration, ite, loop, parameter, header, function, struct]

/-- The name of the kind in documents and reports. -/
def name : Kind → String
  | identifier => "Identifier"
  | type => "Type"
  | constant => "Constant"
  | call => "FunctionCall"
  | index => "IndexOf"
  | access => "Access"
  | cast => "TypeCast"
  | unary => "UnaOp"
  | binary => "BinOp"
  | assign => "Assign"
  | brk => "Break"
  | cont => "Continue"
  | ret => "Return"
  | block => "Block"
  | expr => "ExpStatement"
  | declarator => "Declarator"
  | declaration => "Declaration"
  | ite => "IfStatement"
  | loop => "WhileStatement"
  | parameter => "FormalParameter"
  | header => "FunctionHeader"
  | function => "FunctionDeclaration"
  | struct => "StructDeclaration"

/-- The kind with the given name. -/
def ofName? (name : String) : Option Kind := all.find? (·.name == name)

end Kind

def Expr.kind : Expr → Kind
  | .ident _ => .identifier
  | .const _ => .constant
  | .call _ _ => .call
  | .index _ _ => .index
  | .access _ _ => .access
  | .cast _ _ => .cast
  | .unary _ _ => .unary
  | .binary _ _ _ => .binary
  | .assign _ _ _ => .assign

def Stmt.kind : Stmt → Kind
  | .brk => .brk
  | .cont => .cont
  | .ret _ => .ret
  | .block _ => .block
  | .expr _ => .expr
  | .decl _ => .declaration
  | .ite _ _ _ => .ite
  | .loop _ _ => .loop

def Node.kind : Node → Kind
  | .expr e => e.kind
  | .stmt s => s.kind
  | .type _ => .type
  | .declarator _ => .declarator
  | .parameter _ => .parameter
  | .header _ => .header
  | .function _ => .function
  | .struct _ => .struct

end SyntaxForest
