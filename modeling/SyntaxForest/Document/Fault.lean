import SyntaxForest.Document.Json
import SyntaxForest.Text.Quoted

/-!
# Faults of a document

Why a document cannot be read. A fault says what was found and what was expected there; the wording
is in `Fault.message`, and `Fault.category` tells a document that ends too early from one that is
malformed and from one that is well formed but does not describe a tree.
-/

namespace SyntaxForest.Document

open Numeric

/-- What was found where something else was expected. -/
inductive Found
  | null
  | bool (value : Bool)
  | int (value : Int)
  | float (value : Double)
  | text (value : String)
  | sequence
  | map
  | unitVariant
  deriving DecidableEq

def Found.message : Found → String
  | null => "null"
  | bool true => "boolean `true`"
  | bool false => "boolean `false`"
  | int value => "integer `" ++ intText value ++ "`"
  | float value => "floating point `" ++ documentLayout.text value ++ "`"
  | text value => "string " ++ Text.quoted value
  | sequence => "sequence"
  | map => "map"
  | unitVariant => "unit variant"

/-- What was expected instead. -/
inductive Expected
  | record (name : String)
  | unitRecord (name : String)
  | sequence
  | text
  | unit
  | payload
  deriving DecidableEq

def Expected.message : Expected → String
  | record name => "struct " ++ name
  | unitRecord name => "unit struct " ++ name
  | sequence => "a sequence"
  | text => "a string"
  | unit => "unit"
  | payload => "newtype variant"

/-- Why a document cannot be read. -/
inductive Fault
  /-- The document ends inside a value, an array, an object or a quoted text. -/
  | endInValue
  | endInList
  | endInObject
  | endInText
  /-- The document is malformed. -/
  | expectedColon
  | expectedListCommaOrEnd
  | expectedObjectCommaOrEnd
  | expectedWord
  | expectedValue
  | invalidEscape
  | invalidNumber
  | numberOutOfRange
  | controlCharacter
  | keyNotText
  | loneSurrogate
  | surrogateEnd
  | trailingComma
  | trailingCharacters
  | tooDeep
  /-- The document is well formed but does not describe a tree. -/
  | invalidType (found : Found) (expected : Expected)
  | invalidLength (count : Nat) (name : String) (fields : Nat)
  | missingField (name : String)
  | duplicateField (name : String)
  | unknownVariant (name : String) (known : List String)
  | noScalar
  deriving DecidableEq

namespace Fault

/-- The kinds of faults. -/
inductive Category
  | malformed
  | data
  | ending
  deriving DecidableEq

/-- The kind of a fault. -/
def category : Fault → Category
  | endInValue | endInList | endInObject | endInText => .ending
  | invalidType _ _ | invalidLength _ _ _ | missingField _ | duplicateField _
  | unknownVariant _ _ | noScalar => .data
  | _ => .malformed

/-- A name between backticks. -/
def marked (name : String) : String := "`" ++ name ++ "`"

/-- The names that would have been possible. -/
def oneOf : List String → String
  | [] => "there are no variants"
  | [name] => "expected " ++ marked name
  | [name, name'] => "expected " ++ marked name ++ " or " ++ marked name'
  | names => "expected one of " ++ ", ".intercalate (names.map marked)

def message : Fault → String
  | endInValue => "EOF while parsing a value"
  | endInList => "EOF while parsing a list"
  | endInObject => "EOF while parsing an object"
  | endInText => "EOF while parsing a string"
  | expectedColon => "expected `:`"
  | expectedListCommaOrEnd => "expected `,` or `]`"
  | expectedObjectCommaOrEnd => "expected `,` or `\x7d`"
  | expectedWord => "expected ident"
  | expectedValue => "expected value"
  | invalidEscape => "invalid escape"
  | invalidNumber => "invalid number"
  | numberOutOfRange => "number out of range"
  | controlCharacter => "control character (\\u0000-\\u001F) found while parsing a string"
  | keyNotText => "key must be a string"
  | loneSurrogate => "lone leading surrogate in hex escape"
  | surrogateEnd => "unexpected end of hex escape"
  | trailingComma => "trailing comma"
  | trailingCharacters => "trailing characters"
  | tooDeep => "recursion limit exceeded"
  | invalidType found expected =>
    "invalid type: " ++ found.message ++ ", expected " ++ expected.message
  | invalidLength count name fields =>
    "invalid length " ++ natText count ++ ", expected struct " ++ name ++ " with " ++
      natText fields ++ (if fields = 1 then " element" else " elements")
  | missingField name => "missing field " ++ marked name
  | duplicateField name => "duplicate field " ++ marked name
  | unknownVariant name known => "unknown variant " ++ marked name ++ ", " ++ oneOf known
  | noScalar => "data did not match any variant of untagged enum Scalar"

end Fault

end SyntaxForest.Document
