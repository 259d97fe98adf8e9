/-!
# Primitive types and operators

The closed vocabularies of the language. Every word of one has a name, by which documents refer to
it, and a spelling in source text; the two agree for the primitive types.
-/

namespace SyntaxForest

/-- The primitive types. -/
inductive Primitive
  | bool
  | byte
  | short
  | int
  | long
  | float
  | double
  deriving DecidableEq, Repr

namespace Primitive

/-- The whole vocabulary, in the order in which faults list it. -/
def all : List Primitive := [bool, byte, short, int, long, float, double]

/-- The word for the type, in documents and in source text. -/
def keyword : Primitive → String
  | bool => "bool"
  | byte => "byte"
  | short => "short"
  | int => "int"
  | long => "long"
  | float => "float"
  | double => "double"

/-- The letter behind a literal of the type. Truth values are spelled out and have none. -/
def suffix? : Primitive → Option String
  | bool => none
  | byte => some "B"
  | short => some "S"
  | int => some "I"
  | long => some "L"
  | float => some "F"
  | double => some "D"

/-- Whether a literal of the type may be fractional. -/
def isFloating : Primitive → Bool
  | float | double => true
  | _ => false

end Primitive

/-- The operators on one operand. -/
inductive UnaryOp
  | pos
  | neg
  | not
  | bitNot
  | preInc
  | preDec
  | postInc
  | postDec
  deriving DecidableEq, Repr

namespace UnaryOp

/-- The whole vocabulary, in the order in which faults list it. -/
def all : List UnaryOp := [pos, neg, not, bitNot, preInc, preDec, postInc, postDec]

/-- The operator's name in a document. -/
def name : UnaryOp → String
  | pos => "pos"
  | neg => "neg"
  | not => "not"
  | bitNot => "bit_not"
  | preInc => "pre_inc"
  | preDec => "pre_dec"
  | postInc => "post_inc"
  | postDec => "post_dec"

/-- The operator's spelling in source text. -/
def symbol : UnaryOp → String
  | pos => "+"
  | neg => "-"
  | not => "!"
  | bitNot => "~"
  | preInc | postInc => "++"
  | preDec | postDec => "--"

/-- Whether the operator stands behind its operand. -/
def followsOperand : UnaryOp → Bool
  | postInc | postDec => true
  | _ => false

end UnaryOp

/-- The operators on two operands. -/
inductive BinaryOp
  | add
  | subtract
  | multiply
  | divide
  | modulo
  | bitXor
  | bitAnd
  | bitOr
  | shiftLeft
  | shiftRight
  | less
  | greater
  | lessEqual
  | greaterEqual
  | equal
  | notEqual
  | and
  | or
  deriving DecidableEq, Repr

namespace BinaryOp

/-- The whole vocabulary, in the order in which faults list it. -/
def all : List BinaryOp :=
  [add, subtract, multiply, divide, modulo, bitXor, bitAnd, bitOr, shiftLeft, shiftRight,
    less, greater, lessEqual, greaterEqual, equal, notEqual, and, or]

/-- The operator's name in a document. -/
def name : BinaryOp → String
  | add => "add"
  | subtract => "subtract"
  | multiply => "multiply"
  | divide => "divide"
  | modulo => "modulo"
  | bitXor => "bit_xor"
  | bitAnd => "bit_and"
  | bitOr => "bit_or"
  | shiftLeft => "shift_left"
  | shiftRight => "shift_right"
  | less => "less"
  | greater => "greater"
  | lessEqual => "less_equal"
  | greaterEqual => "greater_equal"
  | equal => "equal"
  | notEqual => "not_equal"
  | and => "and"
  | or => "or"

/-- The operator's spelling in source text. -/
def symbol : BinaryOp → String
  | add => "+"
  | subtract => "-"
  | multiply => "*"
  | divide => "/"
  | modulo => "%"
  | bitXor => "^"
  | bitAnd => "&"
  | bitOr => "|"
  | shiftLeft => "<<"
  | shiftRight => ">>"
  | less => "<"
  | greater => ">"
  | lessEqual => "<="
  | greaterEqual => ">="
  | equal => "=="
  | notEqual => "!="
  | and => "&&"
  | or => "||"

end BinaryOp

/-- Plain assignment, and those that combine the old value with the new one. -/
inductive AssignOp
  | assign
  | add
  | subtract
  | multiply
  | divide
  | modulo
  | bitXor
  | bitAnd
  | bitOr
  | shiftLeft
  | shiftRight
  deriving DecidableEq, Repr

namespace AssignOp

/-- The whole vocabulary, in the order in which faults list it. -/
def all : List AssignOp :=
  [assign, add, subtract, multiply, divide, modulo, bitXor, bitAnd, bitOr, shiftLeft, shiftRight]

/-- The operator's name in a document. -/
def name : AssignOp → String
  | assign => "assign"
  | add => "add"
  | subtract => "subtract"
  | multiply => "multiply"
  | divide => "divide"
  | modulo => "modulo"
  | bitXor => "bit_xor"
  | bitAnd => "bit_and"
  | bitOr => "bit_or"
  | shiftLeft => "shift_left"
  | shiftRight => "shift_right"

/-- The operator's spelling in source text. -/
def symbol : AssignOp → String
  | assign => "="
  | add => "+="
  | subtract => "-="
  | multiply => "*="
  | divide => "/="
  | modulo => "%="
  | bitXor => "^="
  | bitAnd => "&="
  | bitOr => "|="
  | shiftLeft => "<<="
  | shiftRight => ">>="

end AssignOp

end SyntaxForest
