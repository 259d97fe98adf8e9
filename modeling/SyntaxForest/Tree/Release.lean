import SyntaxForest.Tree.Kind

/-!
# Releasing a tree

Taking a tree apart releases every node once, the parts of a node before the node itself. The result
is the list of the kinds of the nodes, in the order in which they are released.
-/

namespace SyntaxForest

/-- The base of a type is a node of its own only where it refers to a name. -/
def TypeBase.release : TypeBase → List Kind
  | .primitive _ => []
  | .reference _ => [.identifier]

mutual

/-- The kinds released with an expression. -/
def Expr.release : Expr → List Kind
  | .ident _ => [.identifier]
  | .const _ => [.constant]
  | .call func args => func.release ++ Expr.releaseAll args ++ [.call]
  | .index var idx => var.release ++ idx.release ++ [.index]
  | .access var field => var.release ++ field.release ++ [.access]
  | .cast ty e => ty.release ++ e.release ++ [.cast]
  | .unary _ e => e.release ++ [.unary]
  | .binary _ left right => left.release ++ right.release ++ [.binary]
  | .assign _ lval rval => lval.release ++ rval.release ++ [.assign]

/-- The kinds released with a type. -/
def Ty.release : Ty → List Kind
  | ⟨base, dims⟩ => base.release ++ Expr.releaseDims dims ++ [.type]

/-- The kinds released with the dimensions of a type. -/
def Expr.releaseDims : Option (List Expr) → List Kind
  | none => []
  | some es => Expr.releaseAll es

/-- The kinds released with several expressions. -/
def Expr.releaseAll : List Expr → List Kind
  | [] => []
  | e :: es => e.release ++ Expr.releaseAll es

end

/-- The kinds released with an expression that may be missing. -/
def Expr.releaseOption : Option Expr → List Kind
  | none => []
  | some e => e.release

def Declarator.release (d : Declarator) : List Kind :=
  .identifier :: Expr.releaseOption d.init ++ [.declarator]

def Declaration.release (d : Declaration) : List Kind :=
  d.ty.release ++ d.declarators.flatMap Declarator.release ++ [.declaration]

mutual

/-- The kinds released with a statement. -/
def Stmt.release : Stmt → List Kind
  | .brk => [.brk]
  | .cont => [.cont]
  | .ret value => Expr.releaseOption value ++ [.ret]
  | .block stats => Stmt.releaseAll stats ++ [.block]
  | .expr e => e.release ++ [.expr]
  | .decl d => d.release
  | .ite condition thenBranch elseBranch =>
    condition.release ++ thenBranch.release ++ Stmt.releaseOption elseBranch ++ [.ite]
  | .loop condition body => condition.release ++ body.release ++ [.loop]

/-- The kinds released with a branch that may be missing. -/
def Stmt.releaseOption : Option Stmt → List Kind
  | none => []
  | some s => s.release

/-- The kinds released with several statements. -/
def Stmt.releaseAll : List Stmt → List Kind
  | [] => []
  | s :: ss => s.release ++ Stmt.releaseAll ss

end

def Parameter.release (p : Parameter) : List Kind :=
  p.ty.release ++ [.identifier, .parameter]

def Header.release (h : Header) : List Kind :=
  h.ty.release ++ .identifier :: h.params.flatMap Parameter.release ++ [.header]

def FunctionDecl.release (f : FunctionDecl) : List Kind :=
  f.header.release ++ Stmt.releaseAll f.body ++ [.block, .function]

def StructDecl.release (s : StructDecl) : List Kind :=
  .identifier :: s.fields.flatMap Declaration.release ++ [.struct]

/-- The kinds of the nodes of a tree, in the order in which they are released. -/
def Node.release : Node → List Kind
  | .expr e => e.release
  | .stmt s => s.release
  | .type ty => ty.release
  | .declarator d => d.release
  | .parameter p => p.release
  | .header h => h.release
  | .function f => f.release
  | .struct s => s.release

end SyntaxForest
