import SyntaxForest.Tree.Check

/-!
# Building trees

The constructors that can refuse what they are given, and the literals of the single kinds. The
other parts of a tree are built by the constructors of their types.
-/

namespace SyntaxForest

open Numeric

namespace Ty

/-- The type of a primitive kind, not an array. -/
def primitive (kind : Primitive) : Ty := ⟨.primitive kind, none⟩

/-- The type that a name refers to, not an array. -/
def reference (id : String) : Ty := ⟨.reference id, none⟩

/-- Makes an array of a type. The dimensions of a type can only be set once. -/
def setDims (ty : Ty) (dims : List Expr) : Except TreeError Ty :=
  match ty.dims with
  | none => .ok { ty with dims := some dims }
  | some _ => .error (.dimsAlreadySet ty.render)

/-- Whether the type is of a primitive kind, array or not. -/
def isPrimitive (ty : Ty) : Bool :=
  match ty.base with
  | .primitive _ => true
  | .reference _ => false

end Ty

namespace Constant

/-- A constant with a whole payload. -/
def ofInt (kind : Primitive) (value : Int64) : Constant := ⟨kind, .int value⟩

/-- A constant with a fractional payload that its kind can read. -/
def ofDouble (kind : Primitive) (value : Double) : Except TreeError Constant := do
  let c : Constant := ⟨kind, .float value⟩
  c.validate
  return c

def bool (value : Bool) : Constant := ofInt .bool (if value then 1 else 0)

def int (value : Int32) : Constant := ofInt .int value.toInt64

def long (value : Int64) : Constant := ofInt .long value

/-- A `float` constant, which need not be finite. -/
def float (value : Single) : Constant := ⟨.float, .float (value.convert Format.double)⟩

/-- A `double` constant, which need not be finite. -/
def double (value : Double) : Constant := ⟨.double, .float value⟩

end Constant

/-- A declaration of at least one name. -/
def Declaration.ofList (ty : Ty) (declarators : List Declarator) :
    Except TreeError Declaration :=
  if declarators.isEmpty then .error (.emptyDeclaration ty.render)
  else .ok ⟨ty, declarators⟩

end SyntaxForest
