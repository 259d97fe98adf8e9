import SyntaxForest.Numeric.Shortest

/-!
# The text of numbers

How whole and binary numbers are written out. The choice of digits belongs to `Format.shortest`;
a `Layout` holds what one kind of output decides for itself.
-/

namespace SyntaxForest.Numeric

/-- The decimal digits of a natural number. -/
def natText (n : Nat) : String := String.ofList (Nat.toDigits 10 n)

/-- The decimal digits of an integer behind its sign. -/
def intText : Int → String
  | .ofNat n => natText n
  | .negSucc n => "-" ++ natText (n + 1)

/-- The conventions of one kind of output for numbers that need not be whole. -/
structure Layout where
  /-- Which of two equally near shortest decimals is written. -/
  tie : Tie
  /-- The exponents `e` of a leading digit in `10 ^ e` for which no exponent is written: all of
  them, or those from the first bound up to, and without, the second. -/
  positional : Option (Int × Int)
  /-- What follows the digits of a whole number that is written without an exponent. -/
  whole : String
  /-- The text of what is no number. -/
  nan : String
  /-- The text of infinity, or of the negative infinity if the argument is true. -/
  infinity : Bool → String

namespace Layout

/-- A run of zeros. -/
def zeros (n : Nat) : String := String.ofList (List.replicate n '0')

/-- A decimal written without an exponent. -/
def plain (L : Layout) (d : Decimal) : String :=
  let digits := Nat.toDigits 10 d.digits
  let lead := d.exponent + digits.length - 1
  if 0 ≤ d.exponent then String.ofList digits ++ zeros d.exponent.toNat ++ L.whole
  else if 0 ≤ lead then
    let (front, back) := digits.splitAt (lead.toNat + 1)
    String.ofList front ++ "." ++ String.ofList back
  else "0." ++ zeros (-lead - 1).toNat ++ String.ofList digits

/-- A decimal written as its leading digit, the others behind a point, and the exponent. -/
def scientific (d : Decimal) : String :=
  let digits := Nat.toDigits 10 d.digits
  let lead := d.exponent + digits.length - 1
  let mantissa := match digits with
    | c :: c' :: rest => String.ofList (c :: '.' :: c' :: rest)
    | _ => String.ofList digits
  let mark := if lead < 0 then "e-" else "e+"
  mantissa ++ mark ++ natText lead.natAbs

/-- A decimal, with or without an exponent as its size demands. -/
def decimal (L : Layout) (d : Decimal) : String :=
  let lead := d.exponent + (Nat.toDigits 10 d.digits).length - 1
  match L.positional with
  | none => L.plain d
  | some (first, bound) =>
    if first ≤ lead && lead < bound then L.plain d else scientific d

/-- The text of a finite number without its sign. -/
def magnitude (L : Layout) {F : Format} (x : Binary F) : String :=
  if x.isZero then "0" ++ L.whole else L.decimal (F.shortest L.tie x.magnitude)

/-- The text of a number. -/
def text (L : Layout) {F : Format} (x : Binary F) : String :=
  if x.isNaN then L.nan
  else if !x.isFinite then L.infinity x.negative
  else if x.negative then "-" ++ L.magnitude x
  else L.magnitude x

end Layout

end SyntaxForest.Numeric
