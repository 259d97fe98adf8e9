import SyntaxForest.Numeric.Layout
import SyntaxForest.Tree.Basic

/-!
# Literals

The source text of a constant is its payload, read as its kind asks, and the suffix of the kind. A
fractional payload cannot be read as a whole number, and a mark stands where such a literal would.
-/

namespace SyntaxForest

open Numeric

/-- Source text writes the shortest decimal without an exponent; a whole number has no point. -/
def sourceLayout : Layout where
  tie := .up
  positional := none
  whole := ""
  nan := "NaN"
  infinity negative := if negative then "-inf" else "inf"

/-- What is written for a payload that the kind of its constant cannot read. -/
def illegalType : String := "<illegal type>"

/-- The source text of a fractional payload. -/
def doubleText (value : Double) : String := sourceLayout.text value

/-- The digits of a payload behind its sign, as a kind other than `bool` reads them. -/
def Scalar.digits? (kind : Primitive) : Scalar → Option String
  | .int value => some (intText value.toInt)
  | .float value => match kind with
    | .float => some (sourceLayout.text (value.convert Format.single))
    | .double => some (doubleText value)
    | _ => none

/-- The source text of a constant. -/
def Constant.literal (c : Constant) : String :=
  match c.kind with
  | .bool => if c.value.isZero then "false" else "true"
  | kind => match c.value.digits? kind with
    | some digits => digits ++ kind.suffix?.getD illegalType
    | none => illegalType

end SyntaxForest
