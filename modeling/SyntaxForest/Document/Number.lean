import SyntaxForest.Document.Reader
import SyntaxForest.Numeric.Scientific

/-!
# Numbers in a document

A number is written as an integer part, a fraction and an exponent. Without the last two it is an
integer, as long as it fits into 64 bits with or without a sign. Every other number is read into a
significand below `2 ^ 64` and a power of ten: digits that would make the significand too large are
dropped, and those of the integer part count towards the power of ten.
-/

namespace SyntaxForest.Document

open Numeric

/-- A number as a document has it. -/
inductive Numeral
  | int (value : Int)
  | float (value : Double)

/-- The first number that needs more than 64 bits, `2 ^ 64`. -/
def unsignedBound : Nat := 18446744073709551616

/-- The first number that needs more than 64 bits once one of them holds a sign, `2 ^ 63`. -/
def signedBound : Nat := 9223372036854775808

/-- The value of a decimal digit. -/
def digitValue (c : Char) : Nat := c.toNat - '0'.toNat

/-- Takes digits into a significand as long as it stays below `2 ^ 64`, and counts them. -/
def takeDigits (significand : Nat) : List Char → Nat × Nat × List Char
  | [] => (significand, 0, [])
  | c :: s =>
    if c.isDigit && significand * 10 + digitValue c < unsignedBound then
      let taken := takeDigits (significand * 10 + digitValue c) s
      (taken.1, taken.2.1 + 1, taken.2.2)
    else (significand, 0, c :: s)

/-- Drops digits and counts them. -/
def dropDigits : List Char → Nat × List Char
  | [] => (0, [])
  | c :: s =>
    if c.isDigit then
      let dropped := dropDigits s
      (dropped.1 + 1, dropped.2)
    else (0, c :: s)

/-- Takes digits into a number of any size. -/
def takeNat (value : Nat) : List Char → Nat × List Char
  | [] => (value, [])
  | c :: s => if c.isDigit then takeNat (value * 10 + digitValue c) s else (value, c :: s)

/-- The digits of an exponent, of which there must be one. -/
def exponentDigits (negative : Bool) : List Char → Outcome Int
  | [] => .error .endInValue
  | c :: s =>
    if c.isDigit then
      let taken := takeNat (digitValue c) s
      .ok (if negative then -(taken.1 : Int) else taken.1, taken.2)
    else .error .invalidNumber

/-- An exponent from behind its letter. -/
def signedExponent : List Char → Outcome Int
  | [] => .error .endInValue
  | c :: s =>
    if c = '+' then exponentDigits false s
    else if c = '-' then exponentDigits true s
    else exponentDigits false (c :: s)

/-- The exponent that a number may have; without one it is zero. -/
def exponentPart : List Char → Outcome Int
  | [] => .ok (0, [])
  | c :: s =>
    if c = 'e' || c = 'E' then signedExponent s else .ok (0, c :: s)

/-- The number with the given significand and power of ten, times the exponent that follows. -/
def scaled (negative : Bool) (significand : Nat) (tens : Int) (s : List Char) : Outcome Numeral :=
  match exponentPart s with
  | .error e => .error e
  | .ok (exponent, rest) =>
    match Double.ofScientific? negative significand (tens + exponent) with
    | some x => .ok (.float x, rest)
    | none => .error .numberOutOfRange

/-- The integer with the given digits. What has no place among the integers of 64 bits, and a zero
with a sign, is taken for a fractional number. -/
def wholeNumber (negative : Bool) (significand : Nat) : Numeral :=
  if !negative then .int significand
  else if significand = 0 || signedBound < significand then
    .float (Binary.ofNat Format.double significand).neg
  else .int (-(significand : Int))

/-- Goes on behind the point of a number, of whose integer part some digits may have been dropped.
There must be a digit. -/
def fraction (negative : Bool) (significand dropped : Nat) (s : List Char) : Outcome Numeral :=
  let taken := takeDigits significand s
  let lost := dropDigits taken.2.2
  if taken.2.1 = 0 && lost.1 = 0 then
    .error (if s.isEmpty then .endInValue else .invalidNumber)
  else scaled negative taken.1 ((dropped : Int) - taken.2.1) lost.2

/-- Goes on behind the integer part of a number. -/
def afterWhole (negative : Bool) (significand dropped : Nat) (s : List Char) : Outcome Numeral :=
  match s with
  | [] =>
    if dropped = 0 then .ok (wholeNumber negative significand, s)
    else scaled negative significand dropped s
  | c :: t =>
    if c = '.' then fraction negative significand dropped t
    else if dropped = 0 && c != 'e' && c != 'E' then .ok (wholeNumber negative significand, s)
    else scaled negative significand dropped s

/-- Whether a text goes on with a digit. -/
def startsWithDigit : List Char → Bool
  | [] => false
  | c :: _ => c.isDigit

/-- Reads a number from behind its sign. Nothing but a zero may start with a zero. -/
def unsignedNumber (negative : Bool) : List Char → Outcome Numeral
  | [] => .error .endInValue
  | c :: s =>
    if c = '0' then
      if startsWithDigit s then .error .invalidNumber else afterWhole negative 0 0 s
    else if c.isDigit then
      let taken := takeDigits (digitValue c) s
      let lost := dropDigits taken.2.2
      afterWhole negative taken.1 lost.1 lost.2
    else .error .invalidNumber

/-! ## What is read becomes shorter -/

theorem takeDigits_length_le (significand : Nat) (s : List Char) :
    (takeDigits significand s).2.2.length ≤ s.length := by
  induction s generalizing significand with
  | nil => simp [takeDigits]
  | cons c s ih =>
    rw [takeDigits]
    split
    · exact Nat.le_succ_of_le (ih _)
    · exact Nat.le_refl _

theorem dropDigits_length_le (s : List Char) : (dropDigits s).2.length ≤ s.length := by
  induction s with
  | nil => simp [dropDigits]
  | cons c s ih =>
    rw [dropDigits]
    split
    · exact Nat.le_succ_of_le ih
    · exact Nat.le_refl _

theorem takeNat_length_le (value : Nat) (s : List Char) :
    (takeNat value s).2.length ≤ s.length := by
  induction s generalizing value with
  | nil => simp [takeNat]
  | cons c s ih =>
    rw [takeNat]
    split
    · exact Nat.le_succ_of_le (ih _)
    · exact Nat.le_refl _

theorem exponentDigits_length_le {negative : Bool} {s : List Char} {e : Int} {rest : List Char}
    (h : exponentDigits negative s = .ok (e, rest)) : rest.length ≤ s.length := by
  cases s with
  | nil => nomatch h
  | cons c s =>
    rw [exponentDigits] at h
    split at h
    · simp only [Except.ok.injEq, Prod.mk.injEq] at h
      exact h.2 ▸ Nat.le_succ_of_le (takeNat_length_le _ _)
    · nomatch h

theorem signedExponent_length_le {s : List Char} {e : Int} {rest : List Char}
    (h : signedExponent s = .ok (e, rest)) : rest.length ≤ s.length := by
  cases s with
  | nil => nomatch h
  | cons c s =>
    rw [signedExponent] at h
    split at h
    · exact Nat.le_succ_of_le (exponentDigits_length_le h)
    · split at h
      · exact Nat.le_succ_of_le (exponentDigits_length_le h)
      · exact exponentDigits_length_le h

theorem exponentPart_length_le {s : List Char} {e : Int} {rest : List Char}
    (h : exponentPart s = .ok (e, rest)) : rest.length ≤ s.length := by
  cases s with
  | nil => simp_all [exponentPart]
  | cons c s =>
    rw [exponentPart] at h
    split at h
    · exact Nat.le_succ_of_le (signedExponent_length_le h)
    · simp only [Except.ok.injEq, Prod.mk.injEq] at h
      exact h.2 ▸ Nat.le_refl _

theorem scaled_length_le {negative : Bool} {significand : Nat} {tens : Int} {s : List Char}
    {x : Numeral} {rest : List Char} (h : scaled negative significand tens s = .ok (x, rest)) :
    rest.length ≤ s.length := by
  rw [scaled] at h
  split at h
  · nomatch h
  · rename_i e r he
    split at h
    · simp only [Except.ok.injEq, Prod.mk.injEq] at h
      exact h.2 ▸ exponentPart_length_le he
    · nomatch h

theorem fraction_length_le {negative : Bool} {significand dropped : Nat} {s : List Char}
    {x : Numeral} {rest : List Char}
    (h : fraction negative significand dropped s = .ok (x, rest)) : rest.length ≤ s.length := by
  simp only [fraction] at h
  split at h
  · nomatch h
  · exact Nat.le_trans (scaled_length_le h)
      (Nat.le_trans (dropDigits_length_le _) (takeDigits_length_le _ _))

theorem afterWhole_length_le {negative : Bool} {significand dropped : Nat} {s : List Char}
    {x : Numeral} {rest : List Char}
    (h : afterWhole negative significand dropped s = .ok (x, rest)) :
    rest.length ≤ s.length := by
  have whole {t : List Char} {n : Numeral}
      (h : Except.ok (n, t) = (.ok (x, rest) : Outcome Numeral)) : rest.length ≤ t.length := by
    simp only [Except.ok.injEq, Prod.mk.injEq] at h
    exact h.2 ▸ Nat.le_refl _
  cases s with
  | nil =>
    simp only [afterWhole] at h
    split at h
    · exact whole h
    · exact scaled_length_le h
  | cons c s =>
    simp only [afterWhole] at h
    split at h
    · exact Nat.le_succ_of_le (fraction_length_le h)
    · split at h
      · exact whole h
      · exact scaled_length_le h

theorem unsignedNumber_length_lt {negative : Bool} {s : List Char} {x : Numeral}
    {rest : List Char} (h : unsignedNumber negative s = .ok (x, rest)) :
    rest.length < s.length := by
  cases s with
  | nil => nomatch h
  | cons c s =>
    simp only [unsignedNumber] at h
    split at h
    · split at h
      · nomatch h
      · exact Nat.lt_succ_of_le (afterWhole_length_le h)
    · split at h
      · exact Nat.lt_succ_of_le (Nat.le_trans (afterWhole_length_le h)
          (Nat.le_trans (dropDigits_length_le _) (takeDigits_length_le _ _)))
      · nomatch h

namespace Reader

/-- Reads a number that has no sign, or from behind its sign. -/
def unsigned (negative : Bool) : Reader Numeral where
  run := unsignedNumber negative
  shorter := unsignedNumber_length_lt

/-- Reads a number. -/
def number : Reader Numeral :=
  look .endInValue fun c =>
    if c = '-' then (anyChar .endInValue).andThen (unsigned true) else unsigned false

end Reader

end SyntaxForest.Document
