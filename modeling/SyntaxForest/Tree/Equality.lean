import SyntaxForest.Tree.Basic

/-!
# Equality of trees

Two trees are the same when they have the same shape and the same contents, where fractional
payloads are compared as numbers: zeros of either sign are the same, and what is no number is the
same as nothing, not even as itself.
-/

namespace SyntaxForest

/-- A whole payload is never the same as a fractional one. -/
def Scalar.same : Scalar → Scalar → Bool
  | .int x, .int y => x == y
  | .float x, .float y => x.same y
  | _, _ => false

def Constant.same (c d : Constant) : Bool :=
  c.kind == d.kind && c.value.same d.value

mutual

/-- Whether two expressions are the same. -/
def Expr.same : Expr → Expr → Bool
  | .ident x, .ident y => x == y
  | .const c, .const d => c.same d
  | .call f args, .call f' args' => f.same f' && Expr.sameAll args args'
  | .index var idx, .index var' idx' => var.same var' && idx.same idx'
  | .access var field, .access var' field' => var.same var' && field.same field'
  | .cast ty e, .cast ty' e' => ty.same ty' && e.same e'
  | .unary op e, .unary op' e' => op == op' && e.same e'
  | .binary op l r, .binary op' l' r' => op == op' && l.same l' && r.same r'
  | .assign op l r, .assign op' l' r' => op == op' && l.same l' && r.same r'
  | _, _ => false
termination_by structural e => e

def Ty.same : Ty → Ty → Bool
  | ⟨base, dims⟩, ⟨base', dims'⟩ => base == base' && Expr.sameDims dims dims'

/-- A missing list of dimensions is not the same as an empty one. -/
def Expr.sameDims : Option (List Expr) → Option (List Expr) → Bool
  | none, none => true
  | some es, some es' => Expr.sameAll es es'
  | _, _ => false

def Expr.sameAll : List Expr → List Expr → Bool
  | [], [] => true
  | e :: es, e' :: es' => e.same e' && Expr.sameAll es es'
  | _, _ => false

end

/-- Compares what may be missing. -/
def sameOption {α : Type} (same : α → α → Bool) : Option α → Option α → Bool
  | none, none => true
  | some x, some y => same x y
  | _, _ => false

/-- Compares lists element by element. -/
def sameList {α : Type} (same : α → α → Bool) : List α → List α → Bool
  | [], [] => true
  | x :: xs, y :: ys => same x y && sameList same xs ys
  | _, _ => false

def Declarator.same (d e : Declarator) : Bool :=
  d.id == e.id && sameOption Expr.same d.init e.init

def Declaration.same (d e : Declaration) : Bool :=
  d.ty.same e.ty && sameList Declarator.same d.declarators e.declarators

mutual

/-- Whether two statements are the same. -/
def Stmt.same : Stmt → Stmt → Bool
  | .brk, .brk => true
  | .cont, .cont => true
  | .ret value, .ret value' => sameOption Expr.same value value'
  | .block ss, .block ss' => Stmt.sameAll ss ss'
  | .expr e, .expr e' => e.same e'
  | .decl d, .decl d' => d.same d'
  | .ite c s e, .ite c' s' e' => c.same c' && s.same s' && Stmt.sameBranch e e'
  | .loop c s, .loop c' s' => c.same c' && s.same s'
  | _, _ => false

def Stmt.sameBranch : Option Stmt → Option Stmt → Bool
  | none, none => true
  | some s, some s' => s.same s'
  | _, _ => false

def Stmt.sameAll : List Stmt → List Stmt → Bool
  | [], [] => true
  | s :: ss, s' :: ss' => s.same s' && Stmt.sameAll ss ss'
  | _, _ => false

end

def Parameter.same (p q : Parameter) : Bool :=
  p.ty.same q.ty && p.id == q.id

def Header.same (h k : Header) : Bool :=
  h.ty.same k.ty && h.id == k.id && sameList Parameter.same h.params k.params

def FunctionDecl.same (f g : FunctionDecl) : Bool :=
  f.header.same g.header && Stmt.sameAll f.body g.body

def StructDecl.same (s t : StructDecl) : Bool :=
  s.id == t.id && sameList Declaration.same s.fields t.fields

/-- Whether two trees are the same. -/
def Node.same : Node → Node → Bool
  | .expr e, .expr e' => e.same e'
  | .stmt s, .stmt s' => s.same s'
  | .type ty, .type ty' => ty.same ty'
  | .declarator d, .declarator d' => d.same d'
  | .parameter p, .parameter p' => p.same p'
  | .header h, .header h' => h.same h'
  | .function f, .function f' => f.same f'
  | .struct s, .struct s' => s.same s'
  | _, _ => false

end SyntaxForest
