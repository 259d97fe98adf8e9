import SyntaxForest.Source.Literal

/-!
# Rendering

A `Renderer` holds the text written so far and how many blocks are open around the place where it
writes. Visiting a node appends the node's source text. Every compound expression is written inside
parentheses, except calls and indexing, and the statements of a block are indented by one step for
every block around them. The fields of a structure always stand at the first step.
-/

namespace SyntaxForest

/-- The text written so far and the number of open blocks. -/
structure Renderer where
  result : String := ""
  level : Nat := 0

namespace Renderer

/-- One step of indentation. -/
def indentStep : String := "    "

/-- The indentation inside the given number of blocks. -/
def indentation : Nat → String
  | 0 => ""
  | level + 1 => indentation level ++ indentStep

/-- Appends a text. -/
def push (r : Renderer) (text : String) : Renderer := { r with result := r.result ++ text }

/-- Forgets what has been written. -/
def clear (_ : Renderer) : Renderer := {}

/-- Visits the rest of a list, each element behind a separator. -/
def listRest (separator before after : String) :
    List (Renderer → Renderer) → Renderer → Renderer
  | [], r => r
  | visit :: visits, r =>
    listRest separator before after visits
      ((visit ((r.push separator).push before)).push after)

/-- Visits the elements of a list, each between `before` and `after`, with a separator between one
and the next. -/
def list (separator before after : String) : List (Renderer → Renderer) → Renderer → Renderer
  | [], r => r
  | visit :: visits, r =>
    listRest separator before after visits ((visit (r.push before)).push after)

/-- Visits the statements of a block, each on a line of its own, one level further in. -/
def block (visits : List (Renderer → Renderer)) (r : Renderer) : Renderer :=
  let outer := indentation r.level
  let opened := { r.push "\x7b\n" with level := r.level + 1 }
  let inside := list "\n" (outer ++ indentStep) "" visits opened
  (({ inside with level := inside.level - 1 }.push "\n").push outer).push "\x7d"

end Renderer

/-- Writes a primitive type as its keyword and a reference as the name it refers to. -/
def TypeBase.visit : TypeBase → Renderer → Renderer
  | .primitive kind, r => r.push kind.keyword
  | .reference id, r => r.push id

mutual

/-- Writes an expression. -/
def Expr.visit : Expr → Renderer → Renderer
  | .ident id, r => r.push id
  | .const c, r => r.push c.literal
  | .call func args, r =>
    ((func.visit r).push "(" |> Renderer.list ", " "" "" (Expr.visits args)).push ")"
  | .index var idx, r => (idx.visit ((var.visit r).push "[")).push "]"
  | .access var field, r => (field.visit ((var.visit (r.push "(")).push ".")).push ")"
  | .cast ty e, r => (e.visit ((ty.visit (r.push "(")).push " ")).push ")"
  | .unary op e, r =>
    if op.followsOperand then ((e.visit (r.push "(")).push op.symbol).push ")"
    else (e.visit ((r.push "(").push op.symbol)).push ")"
  | .binary op left right, r =>
    (right.visit ((((left.visit (r.push "(")).push " ").push op.symbol).push " ")).push ")"
  | .assign op lval rval, r =>
    (rval.visit ((((lval.visit (r.push "(")).push " ").push op.symbol).push " ")).push ")"

/-- Writes a type: its base, then every dimension in brackets. -/
def Ty.visit : Ty → Renderer → Renderer
  | ⟨base, dims⟩, r => Renderer.list "" "[" "]" (Expr.visitsDims dims) (base.visit r)

/-- The visits of the dimensions of a type. -/
def Expr.visitsDims : Option (List Expr) → List (Renderer → Renderer)
  | none => []
  | some es => Expr.visits es

/-- The visits of several expressions. -/
def Expr.visits : List Expr → List (Renderer → Renderer)
  | [] => []
  | e :: es => e.visit :: Expr.visits es

end

/-- Writes a declared name and, behind an equals sign, its initial value. -/
def Declarator.visit (d : Declarator) (r : Renderer) : Renderer :=
  match d.init with
  | none => r.push d.id
  | some e => e.visit ((r.push d.id).push " = ")

/-- Writes a type and the names declared to have it. -/
def Declaration.visit (d : Declaration) (r : Renderer) : Renderer :=
  Renderer.list " " "" "" (d.declarators.map Declarator.visit) ((d.ty.visit r).push " ")

mutual

/-- Writes a statement. -/
def Stmt.visit : Stmt → Renderer → Renderer
  | .brk, r => r.push "break"
  | .cont, r => r.push "continue"
  | .ret none, r => r.push "return"
  | .ret (some e), r => e.visit ((r.push "return").push " ")
  | .block stats, r => Renderer.block (Stmt.visits stats) r
  | .expr e, r => e.visit r
  | .decl d, r => d.visit r
  | .ite condition thenBranch elseBranch, r =>
    Stmt.visitElse elseBranch
      (thenBranch.visit ((condition.visit (r.push "if (")).push ") "))
  | .loop condition body, r => body.visit ((condition.visit (r.push "while (")).push ") ")

/-- Writes the branch behind `else`, if there is one. -/
def Stmt.visitElse : Option Stmt → Renderer → Renderer
  | none, r => r
  | some s, r => s.visit (r.push " else ")

/-- The visits of several statements. -/
def Stmt.visits : List Stmt → List (Renderer → Renderer)
  | [] => []
  | s :: ss => s.visit :: Stmt.visits ss

end

/-- Writes the type and name of a parameter. -/
def Parameter.visit (p : Parameter) (r : Renderer) : Renderer :=
  ((p.ty.visit r).push " ").push p.id

/-- Writes the type and name of a function and its parameters in parentheses. -/
def Header.visit (h : Header) (r : Renderer) : Renderer :=
  ((((h.ty.visit r).push " ").push h.id).push "("
    |> Renderer.list ", " "" "" (h.params.map Parameter.visit)).push ")"

/-- Writes the header of a function and its body as a block. -/
def FunctionDecl.visit (f : FunctionDecl) (r : Renderer) : Renderer :=
  Renderer.block (Stmt.visits f.body) ((f.header.visit r).push " ")

/-- Writes the name of a structure and its fields, each on a line of its own. -/
def StructDecl.visit (s : StructDecl) (r : Renderer) : Renderer :=
  (((r.push "struct ").push s.id).push " \x7b\n"
    |> Renderer.list "\n" Renderer.indentStep "" (s.fields.map Declaration.visit)).push "\n\x7d"

/-- Writes a node. -/
def Node.visit : Node → Renderer → Renderer
  | .expr e => e.visit
  | .stmt s => s.visit
  | .type ty => ty.visit
  | .declarator d => d.visit
  | .parameter p => p.visit
  | .header h => h.visit
  | .function f => f.visit
  | .struct s => s.visit

/-- The source text of a node, written by a renderer of its own. -/
def Node.render (n : Node) : String := (n.visit {}).result

/-- The source text of a type. -/
def Ty.render (ty : Ty) : String := (Node.type ty).render

/-- The source text of an expression. -/
def Expr.render (e : Expr) : String := (Node.expr e).render

end SyntaxForest
