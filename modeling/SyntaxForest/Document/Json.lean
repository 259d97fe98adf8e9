import SyntaxForest.Numeric.Layout

/-!
# Documents

The values that a document is made of, and their text, either on one line without blanks or with
every element and member on an indented line of its own. Members keep their order.
-/

namespace SyntaxForest.Document

open Numeric

/-- A document value. -/
inductive Json
  | null
  | int (value : Int)
  | float (value : Double)
  | text (value : String)
  | array (items : List Json)
  | object (members : List (String × Json))

/-- Documents write the shortest decimal, always with a point or an exponent; very large and very
small numbers have an exponent with its sign. There is no text for what is not finite. -/
def documentLayout : Layout where
  tie := .even
  positional := some (-5, 16)
  whole := ".0"
  nan := "null"
  infinity _ := "null"

/-- How a character is written inside a quoted text. -/
def escaped (c : Char) : String :=
  if c = '"' then "\\\""
  else if c = '\\' then "\\\\"
  else if c = '\x08' then "\\b"
  else if c = '\x0c' then "\\f"
  else if c = '\n' then "\\n"
  else if c = '\r' then "\\r"
  else if c = '\t' then "\\t"
  else if c.toNat < 16 then "\\u000" ++ String.ofList (Nat.toDigits 16 c.toNat)
  else if c.toNat < 32 then "\\u00" ++ String.ofList (Nat.toDigits 16 c.toNat)
  else c.toString

/-- Appends a text between double quotes. -/
def appendQuoted (out : String) (s : String) : String :=
  s.toList.foldl (fun out c => out ++ escaped c) (out ++ "\"") ++ "\""

/-- Whether a document is written on one line, or over lines that are indented by a level. -/
inductive Spacing
  | compact
  | indented (level : Nat)

namespace Spacing

/-- The spacing inside an array or object. -/
def deeper : Spacing → Spacing
  | compact => compact
  | indented level => indented (level + 1)

/-- What stands before an element, a member or a closing bracket. -/
def lineBreak : Spacing → String
  | compact => ""
  | indented level => String.ofList ('\n' :: List.replicate (2 * level) ' ')

/-- What stands between the key and the value of a member. -/
def colon : Spacing → String
  | compact => ":"
  | indented _ => ": "

end Spacing

namespace Json

mutual

/-- Appends the text of a value. -/
def write (spacing : Spacing) : Json → String → String
  | .null, out => out ++ "null"
  | .int value, out => out ++ intText value
  | .float value, out => out ++ documentLayout.text value
  | .text value, out => appendQuoted out value
  | .array items, out => match items with
    | [] => out ++ "[]"
    | item :: items =>
      writeItems spacing.deeper items
        (item.write spacing.deeper (out ++ "[" ++ spacing.deeper.lineBreak))
        ++ spacing.lineBreak ++ "]"
  | .object members, out => match members with
    | [] => out ++ "\x7b\x7d"
    | (key, value) :: members =>
      writeMembers spacing.deeper members
        (value.write spacing.deeper
          (appendQuoted (out ++ "\x7b" ++ spacing.deeper.lineBreak) key ++ spacing.deeper.colon))
        ++ spacing.lineBreak ++ "\x7d"

/-- Appends the further elements of an array, each behind a comma. -/
def writeItems (spacing : Spacing) : List Json → String → String
  | [], out => out
  | item :: items, out =>
    writeItems spacing items (item.write spacing (out ++ "," ++ spacing.lineBreak))

/-- Appends the further members of an object, each behind a comma. -/
def writeMembers (spacing : Spacing) : List (String × Json) → String → String
  | [], out => out
  | (key, value) :: members, out =>
    writeMembers spacing members
      (value.write spacing
        (appendQuoted (out ++ "," ++ spacing.lineBreak) key ++ spacing.colon))

end

/-- The text of a value on one line. -/
def compact (j : Json) : String := j.write .compact ""

/-- The text of a value over indented lines. -/
def pretty (j : Json) : String := j.write (.indented 0) ""

end Json

end SyntaxForest.Document
