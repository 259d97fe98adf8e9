/-!
# Binary floating point

A format fixes how many bits hold the fraction and how many the exponent. A number of the format is
a sign and a *magnitude*, the word that is left of its bits once the sign is taken away. Magnitudes
count the non-negative values upwards, so they are ordered as the values are, infinity comes after
the largest finite value, and every later magnitude stands for no number.

All finite values are whole multiples of one smallest step, the *unit* of the format. Arithmetic is
therefore done on whole numbers: an operation computes an exact quotient of units and `round` picks
the magnitude nearest to it.
-/

namespace SyntaxForest.Numeric

/-- A binary format: its stored fraction bits and its exponent bits. -/
structure Format where
  fractionBits : Nat
  exponentBits : Nat
  deriving DecidableEq

namespace Format

/-- The 32-bit format. -/
def single : Format := ⟨23, 8⟩

/-- The 64-bit format. -/
def double : Format := ⟨52, 11⟩

/-- The number one is `2 ^ scale` units. -/
def scale (F : Format) : Nat := Nat.pow 2 (F.exponentBits - 1) + F.fractionBits - 2

/-- The number one, counted in units. -/
def one (F : Format) : Nat := Nat.pow 2 F.scale

/-- The number of magnitudes. -/
def size (F : Format) : Nat := Nat.pow 2 (F.exponentBits + F.fractionBits)

/-- The number of fractions, which is also the significand of the smallest number that has a leading
bit. -/
def fractions (F : Format) : Nat := Nat.pow 2 F.fractionBits

/-- The magnitude of infinity. -/
def infinity (F : Format) : Nat := (Nat.pow 2 F.exponentBits - 1) * F.fractions

/-- The significand of a finite magnitude, its implicit leading bit included. -/
def significand (F : Format) (magnitude : Nat) : Nat :=
  if magnitude < F.fractions then magnitude else F.fractions + magnitude % F.fractions

/-- How many binary places the significand of a finite magnitude is shifted up. -/
def shift (F : Format) (magnitude : Nat) : Nat :=
  magnitude / F.fractions - 1

/-- The value of a finite magnitude, counted in units. -/
def units (F : Format) (magnitude : Nat) : Nat :=
  F.significand magnitude * Nat.pow 2 (F.shift magnitude)

/-- The whole number nearest to `num / den`; of two equally near ones the even one. -/
def roundDiv (num den : Nat) : Nat :=
  if 2 * (num % den) < den then num / den
  else if den < 2 * (num % den) then num / den + 1
  else num / den + num / den % 2

/-- The magnitude nearest to `num / den` units, ties going to the even magnitude. A significand that
rounds up to the next power of two carries into the exponent, and what is too large is infinite. -/
def round (F : Format) (num den : Nat) : Nat :=
  let places := (num / den).log2 - F.fractionBits
  min (places * F.fractions + roundDiv num (den * Nat.pow 2 places)) F.infinity

theorem infinity_lt_size (F : Format) : F.infinity < F.size := by
  have hpos : 0 < F.fractions := Nat.pow_pos (by decide)
  have hexp : 0 < Nat.pow 2 F.exponentBits := Nat.pow_pos (by decide)
  have hsize : F.size = Nat.pow 2 F.exponentBits * F.fractions := Nat.pow_add 2 _ _
  rw [hsize, infinity]
  exact Nat.mul_lt_mul_of_pos_right (Nat.sub_lt hexp (by decide)) hpos

theorem round_le_infinity (F : Format) (num den : Nat) : F.round num den ≤ F.infinity :=
  Nat.min_le_right _ _

theorem round_lt_size (F : Format) (num den : Nat) : F.round num den < F.size :=
  Nat.lt_of_le_of_lt (F.round_le_infinity num den) F.infinity_lt_size

end Format

/-- A number of a binary format. -/
structure Binary (F : Format) where
  negative : Bool
  magnitude : Nat
  magnitude_lt : magnitude < F.size
  deriving DecidableEq

/-- A 32-bit number. -/
abbrev Single := Binary Format.single

/-- A 64-bit number. -/
abbrev Double := Binary Format.double

namespace Binary

variable {F : Format}

/-- The number with the given bits; bits above the sign are ignored. -/
def ofBits (F : Format) (bits : Nat) : Binary F where
  negative := bits / F.size % 2 == 1
  magnitude := bits % F.size
  magnitude_lt := Nat.mod_lt _ (Nat.pow_pos (by decide))

/-- The bits of a number: the sign above the magnitude. -/
def toBits (x : Binary F) : Nat :=
  (if x.negative then F.size else 0) + x.magnitude

/-- A magnitude beyond infinity stands for no number. -/
def isNaN (x : Binary F) : Bool := F.infinity < x.magnitude

/-- Whether a number is neither infinite nor missing. -/
def isFinite (x : Binary F) : Bool := x.magnitude < F.infinity

/-- Whether a number is a zero of either sign. -/
def isZero (x : Binary F) : Bool := x.magnitude == 0

/-- The same number with the other sign. -/
def neg (x : Binary F) : Binary F := { x with negative := !x.negative }

/-- Equality of values: the zeros are equal, and what is no number is not even equal to itself. -/
def same (x y : Binary F) : Bool :=
  !x.isNaN && !y.isNaN && (x.isZero && y.isZero || x == y)

/-- The nearest number of another format. -/
def convert (G : Format) (x : Binary F) : Binary G :=
  if x.isNaN then
    { negative := x.negative, magnitude := G.size - 1,
      magnitude_lt := Nat.sub_lt (Nat.pow_pos (by decide)) (by decide) }
  else if x.isFinite then
    { negative := x.negative,
      magnitude := G.round (F.units x.magnitude * G.one) F.one,
      magnitude_lt := G.round_lt_size _ _ }
  else
    { negative := x.negative, magnitude := G.infinity, magnitude_lt := G.infinity_lt_size }

/-- The largest finite number. -/
def largest (F : Format) : Binary F where
  negative := false
  magnitude := F.infinity - 1
  magnitude_lt := Nat.lt_of_le_of_lt (Nat.sub_le _ _) F.infinity_lt_size

/-- The number nearest to a whole number. -/
def ofNat (F : Format) (n : Nat) : Binary F where
  negative := false
  magnitude := F.round (n * F.one) 1
  magnitude_lt := F.round_lt_size _ _

/-- The product of two finite numbers. -/
def mul (x y : Binary F) : Binary F where
  negative := x.negative != y.negative
  magnitude := F.round (F.units x.magnitude * F.units y.magnitude) F.one
  magnitude_lt := F.round_lt_size _ _

/-- The quotient of two finite numbers, the second not zero. -/
def div (x y : Binary F) : Binary F where
  negative := x.negative != y.negative
  magnitude := F.round (F.units x.magnitude * F.one) (F.units y.magnitude)
  magnitude_lt := F.round_lt_size _ _

end Binary

end SyntaxForest.Numeric
