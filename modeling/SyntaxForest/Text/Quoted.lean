import SyntaxForest.Text.Unprintable

/-!
# Quoted texts

How a message shows a text that it found: between double quotes, with a backslash before quotes and
backslashes, with the usual short forms for line breaks, tabs and the null character, and with the
code point of any other unprintable character.
-/

namespace SyntaxForest.Text

/-- The lower case hexadecimal digits of a number. -/
def hexDigits (n : Nat) : String := String.ofList (Nat.toDigits 16 n)

/-- How one character is shown. -/
def shown (c : Char) : String :=
  if c = '\x00' then "\\0"
  else if c = '\t' then "\\t"
  else if c = '\r' then "\\r"
  else if c = '\n' then "\\n"
  else if c = '\\' then "\\\\"
  else if c = '"' then "\\\""
  else if isUnprintable c then "\\u\x7b" ++ hexDigits c.toNat ++ "\x7d"
  else c.toString

/-- A text between double quotes. -/
def quoted (s : String) : String :=
  s.toList.foldl (fun out c => out ++ shown c) "\"" ++ "\""

end SyntaxForest.Text
