import SyntaxForest.Numeric.Binary

/-!
# Numbers from a significand and a power of ten

A document writes a number as a whole significand and a power of ten. Its value here is what a few
roundings make of it: the significand is rounded first, then multiplied or divided by the rounded
power of ten. The result can thus be off the nearest number by a little. Only the powers up to
`10 ^ 308` exist as finite numbers, and a larger division is done in steps of `10 ^ 308`.
-/

namespace SyntaxForest.Numeric.Double

/-- The exponent of the largest power of ten that is a finite number. -/
def mostTens : Nat := 308

/-- The number nearest to a power of ten. -/
def powerOfTen (k : Nat) : Double := Binary.ofNat Format.double (Nat.pow 10 k)

/-- Divides by `10 ^ 308` the given number of times, or until nothing is left. -/
def divideSteps : Nat → Double → Double
  | 0, x => x
  | steps + 1, x => if x.isZero then x else divideSteps steps (x.div (powerOfTen mostTens))

/-- Divides by `10 ^ k` for a positive `k`; the power of the last step is at most `10 ^ 308`. -/
def divideTens (x : Double) (k : Nat) : Double :=
  let steps := (k - 1) / mostTens
  (divideSteps steps x).div (powerOfTen (k - steps * mostTens))

/-- Multiplies by `10 ^ k`; there is no result when it would be infinite. -/
def multiplyTens? (x : Double) (k : Nat) : Option Double :=
  if k ≤ mostTens then
    let product := x.mul (powerOfTen k)
    if product.isFinite then some product else none
  else if x.isZero then some x
  else none

/-- The number for `significand * 10 ^ exponent` behind a sign, if it is finite. -/
def ofScientific? (negative : Bool) (significand : Nat) (exponent : Int) : Option Double :=
  let start := Binary.ofNat Format.double significand
  let size? := match exponent with
    | .ofNat k => multiplyTens? start k
    | .negSucc k => some (divideTens start (k + 1))
  size?.map fun x => if negative then x.neg else x

end SyntaxForest.Numeric.Double
