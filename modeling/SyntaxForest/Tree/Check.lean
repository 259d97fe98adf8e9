import SyntaxForest.Source.Renderer

/-!
# Invariants

A tree is well formed when every constant can be read as its kind asks and no declaration is without
names. Both are checked when a part is built (`Tree.Build`) and again, all at once, for a tree that
was read from a document. That check walks through the whole tree with a slot for one error
(`Node.examine`). The slot goes from every part to the next, and a part that is wrong fills it only
if it is still empty; the walk goes on when it is full. `Node.check` looks into the slot at the end.
-/

namespace SyntaxForest

open Numeric

/-- Why a part of a tree cannot be built, or must not be where it is. -/
inductive TreeError
  | dimsAlreadySet (ty : String)
  | emptyDeclaration (ty : String)
  | notAFloatKind (kind : Primitive)
  | floatOutOfRange (kind : Primitive) (value : String)
  deriving DecidableEq

namespace TreeError

/-- The name of the error. -/
def name : TreeError → String
  | dimsAlreadySet _ => "DimsAlreadySet"
  | emptyDeclaration _ => "EmptyDeclaration"
  | notAFloatKind _ => "NotAFloatKind"
  | floatOutOfRange _ _ => "FloatOutOfRange"

def message : TreeError → String
  | dimsAlreadySet ty => "dimensions of type '" ++ ty ++ "' are already set"
  | emptyDeclaration ty => "declaration of type '" ++ ty ++ "' has no declarators"
  | notAFloatKind kind => "'" ++ kind.keyword ++ "' constants cannot hold a floating-point value"
  | floatOutOfRange kind value => value ++ " is not a finite '" ++ kind.keyword ++ "' value"

end TreeError

/-- Whether a fractional payload lies in the range of a kind: within the finite 32-bit numbers for
`float`, and finite for any other kind. -/
def Primitive.inRange (kind : Primitive) (value : Double) : Bool :=
  match kind with
  | .float =>
    value.isFinite &&
      value.magnitude ≤ ((Binary.largest Format.single).convert Format.double).magnitude
  | _ => value.isFinite

/-- Whether the kind of a constant can read its payload. A whole payload can always be read. -/
def Constant.validate (c : Constant) : Except TreeError Unit :=
  match c.value with
  | .int _ => .ok ()
  | .float value =>
    if !c.kind.isFloating then .error (.notAFloatKind c.kind)
    else if !c.kind.inRange value then .error (.floatOutOfRange c.kind (doubleText value))
    else .ok ()

/-- Why the kind of a constant cannot read its payload, if it cannot. -/
def Constant.violation? (c : Constant) : Option TreeError :=
  match c.validate with
  | .ok () => none
  | .error e => some e

/-! ## The walk

Constants and declarations are all that can be wrong. Names, `break` and `continue` have no parts
and leave the slot as it is. -/

/-- Looks at a constant, unless something was found before. -/
def Constant.examine (c : Constant) (slot : Option TreeError) : Option TreeError :=
  if slot.isNone then c.violation? else slot

mutual

/-- Walks through an expression. -/
def Expr.examine : Expr → Option TreeError → Option TreeError
  | .ident _, slot => slot
  | .const c, slot => c.examine slot
  | .call func args, slot => Expr.examineAll args (func.examine slot)
  | .index var idx, slot => idx.examine (var.examine slot)
  | .access var field, slot => field.examine (var.examine slot)
  | .cast ty e, slot => e.examine (ty.examine slot)
  | .unary _ e, slot => e.examine slot
  | .binary _ left right, slot => right.examine (left.examine slot)
  | .assign _ lval rval, slot => rval.examine (lval.examine slot)

/-- Walks through the dimensions of a type. -/
def Ty.examine : Ty → Option TreeError → Option TreeError
  | ⟨_, dims⟩, slot => Expr.examineDims dims slot

def Expr.examineDims : Option (List Expr) → Option TreeError → Option TreeError
  | none, slot => slot
  | some es, slot => Expr.examineAll es slot

def Expr.examineAll : List Expr → Option TreeError → Option TreeError
  | [], slot => slot
  | e :: es, slot => Expr.examineAll es (e.examine slot)

end

/-- Walks through an expression that may be missing. -/
def Expr.examineOption : Option Expr → Option TreeError → Option TreeError
  | none, slot => slot
  | some e, slot => e.examine slot

def Declarator.examine (d : Declarator) (slot : Option TreeError) : Option TreeError :=
  Expr.examineOption d.init slot

/-- Looks at the names of a declaration: there must be some. -/
def Declaration.examineNames (d : Declaration) (slot : Option TreeError) : Option TreeError :=
  if d.declarators.isEmpty && slot.isNone then some (.emptyDeclaration d.ty.render) else slot

/-- A declaration without names is found before anything inside its type. -/
def Declaration.examine (d : Declaration) (slot : Option TreeError) : Option TreeError :=
  d.declarators.foldl (fun slot x => x.examine slot) (d.ty.examine (d.examineNames slot))

mutual

/-- Walks through a statement. -/
def Stmt.examine : Stmt → Option TreeError → Option TreeError
  | .brk, slot => slot
  | .cont, slot => slot
  | .ret value, slot => Expr.examineOption value slot
  | .block stats, slot => Stmt.examineAll stats slot
  | .expr e, slot => e.examine slot
  | .decl d, slot => d.examine slot
  | .ite condition thenBranch elseBranch, slot =>
    Stmt.examineBranch elseBranch (thenBranch.examine (condition.examine slot))
  | .loop condition body, slot => body.examine (condition.examine slot)

def Stmt.examineBranch : Option Stmt → Option TreeError → Option TreeError
  | none, slot => slot
  | some s, slot => s.examine slot

def Stmt.examineAll : List Stmt → Option TreeError → Option TreeError
  | [], slot => slot
  | s :: ss, slot => Stmt.examineAll ss (s.examine slot)

end

def Parameter.examine (p : Parameter) (slot : Option TreeError) : Option TreeError :=
  p.ty.examine slot

def Header.examine (h : Header) (slot : Option TreeError) : Option TreeError :=
  h.params.foldl (fun slot p => p.examine slot) (h.ty.examine slot)

/-- Walks through a tree. -/
def Node.examine : Node → Option TreeError → Option TreeError
  | .expr e, slot => e.examine slot
  | .stmt s, slot => s.examine slot
  | .type ty, slot => ty.examine slot
  | .declarator d, slot => d.examine slot
  | .parameter p, slot => p.examine slot
  | .header h, slot => h.examine slot
  | .function f, slot => Stmt.examineAll f.body (f.header.examine slot)
  | .struct s, slot => s.fields.foldl (fun slot d => d.examine slot) slot

/-! ## The verdict -/

/-- The first violation of an invariant in a tree, if there is any: what is in the slot after a walk
that begins with an empty one. -/
def Node.check (n : Node) : Except TreeError Unit :=
  match n.examine none with
  | some e => .error e
  | none => .ok ()

/-- A constant that is a whole tree is checked as when it is built. -/
theorem Node.check_const (c : Constant) : (Node.expr (.const c)).check = c.validate := by
  rw [Node.check, Node.examine, Expr.examine, Constant.examine, Constant.violation?]
  cases c.validate <;> rfl

/-- Checks the elements of a list in turn, up to the first that is refused. -/
def checkEach {α : Type} (check : α → Except TreeError Unit) : List α → Except TreeError Unit
  | [] => .ok ()
  | x :: xs => do check x; checkEach check xs

end SyntaxForest
