import SyntaxForest.Proofs.Document.Decimals
import SyntaxForest.Proofs.Numeric.Fewest
import SyntaxForest.Proofs.Numeric.Narrowing
import SyntaxForest.Proofs.Source.Text
import SyntaxForest.Proofs.Tree.Construction

/-!
# The text of literals

A constant whose kind can read its payload is written as a literal: a truth value as a word, and any
other as digits behind a sign, with a point among them or none, in front of the letter of the kind
(`Constant.render_of_validate`). The range of a `float` is checked on a 64-bit number and its text
comes from a 32-bit one, which is finite all the same; and a 32-bit number that was widened for its
constant is written as itself, with its own shortest digits (`Constant.render_float`).
-/

namespace SyntaxForest

open Numeric Document

/-! ## Signs and digits -/

/-- A text of digits, with a point in front of the last ones or none, and the number it stands
for. -/
def Denotes (t : List Char) (value : ℚ) : Prop :=
  ∃ whole back, whole ≠ [] ∧ AllDigits (whole ++ back) ∧
    t = whole ++ (if back = [] then [] else '.' :: back) ∧
    value = Nat.ofDigitChars 10 (whole ++ back) 0 / (10 ^ back.length : Nat)

theorem denotes_natText (n : Nat) : Denotes (natText n).toList n := by
  rw [natText_toList]
  refine ⟨Nat.toDigits 10 n, [], Nat.toDigits_ne_nil, ?_, by simp, ?_⟩
  · rw [List.append_nil]
    exact allDigits_toDigits n
  · rw [List.append_nil, Nat.ofDigitChars_ten_toDigits]
    simp

/-- A decimal is written as the number it is. -/
theorem denotes_plain (d : Decimal) : Denotes (sourceLayout.plain d).toList d.value := by
  have hds := allDigits_toDigits d.digits
  have hne : Nat.toDigits 10 d.digits ≠ [] := Nat.toDigits_ne_nil
  have hpos : 0 < (Nat.toDigits 10 d.digits).length := List.length_pos_iff.mpr hne
  rw [Layout.plain, Decimal.value_eq]
  split
  · next hexp =>
    refine ⟨Nat.toDigits 10 d.digits ++ (Layout.zeros d.exponent.toNat).toList, [], by simp [hne],
      ?_, by simp [sourceLayout], ?_⟩
    · rw [List.append_nil]
      exact hds.append (allDigits_zeros _)
    · have hden : (-d.exponent).toNat = 0 := Int.toNat_of_nonpos (by omega)
      rw [List.append_nil, Nat.ofDigitChars_append, Nat.ofDigitChars_ten_toDigits,
        ofDigitChars_zeros, hden]
      rfl
  have hscale : d.exponent.toNat = 0 := Int.toNat_of_nonpos (by omega)
  rw [hscale, Nat.pow_zero, Nat.mul_one]
  split
  · -- The point stands inside the digits, so there are some on either side of it.
    let place := (d.exponent + (Nat.toDigits 10 d.digits).length - 1).toNat + 1
    have hsplit := List.take_append_drop place (Nat.toDigits 10 d.digits)
    have hback : ((Nat.toDigits 10 d.digits).drop place).length = (-d.exponent).toNat := by
      rw [List.length_drop]
      omega
    refine ⟨(Nat.toDigits 10 d.digits).take place, (Nat.toDigits 10 d.digits).drop place, ?_, ?_,
      ?_, ?_⟩
    · rw [← List.length_pos_iff, List.length_take]
      omega
    · rw [hsplit]
      exact hds
    · have hne : (Nat.toDigits 10 d.digits).drop place ≠ [] := by
        rw [← List.length_pos_iff, hback]
        omega
      rw [if_neg hne]
      simp [List.splitAt_eq, place]
    · rw [hsplit, Nat.ofDigitChars_ten_toDigits, hback]
  · let n := (-(d.exponent + (Nat.toDigits 10 d.digits).length - 1) - 1).toNat
    refine ⟨['0'], (Layout.zeros n).toList ++ Nat.toDigits 10 d.digits, by simp, ?_, ?_, ?_⟩
    · exact AllDigits.append (by simp [AllDigits]) ((allDigits_zeros _).append hds)
    · rw [if_neg (by simp [hne]), String.toList_append, String.toList_append,
        String.toList_ofList (l := Nat.toDigits 10 d.digits), List.append_assoc]
      rfl
    · have hback : ((Layout.zeros n).toList ++ Nat.toDigits 10 d.digits).length =
          (-d.exponent).toNat := by
        simp only [n, Layout.zeros, String.toList_ofList, List.length_append, List.length_replicate]
        omega
      rw [hback, Nat.ofDigitChars_append, Nat.ofDigitChars_append, ofDigitChars_zeros,
        Nat.ofDigitChars_cons]
      simp

/-- The text of a finite number is its sign and its magnitude. -/
theorem text_of_isFinite (L : Layout) {F : Format} {x : Binary F} (hx : x.isFinite = true) :
    L.text x = (if x.negative then "-" else "") ++ L.magnitude x := by
  have hnan : x.isNaN = false := by
    rw [Binary.isFinite_iff] at hx
    simp only [Binary.isNaN, decide_eq_false_iff_not]
    omega
  cases hneg : x.negative <;> simp [Layout.text, hnan, hx, hneg]

theorem denotes_sourceLayout {F : Format} (x : Binary F) :
    ∃ value, Denotes (sourceLayout.magnitude x).toList value := by
  rw [Layout.magnitude]
  split
  · exact ⟨_, denotes_natText 0⟩
  · exact ⟨_, denotes_plain _⟩

/-- A minus sign or none, digits, and a point with more digits behind it or none. -/
def DecimalText (t : List Char) : Prop :=
  ∃ sign whole fraction, (sign = [] ∨ sign = ['-']) ∧ whole ≠ [] ∧ AllDigits whole ∧
    FractionText fraction ∧ t = sign ++ whole ++ fraction

theorem Denotes.decimalText {sign digits : List Char} {value : ℚ} (hsign : sign = [] ∨ sign = ['-'])
    (h : Denotes digits value) : DecimalText (sign ++ digits) := by
  obtain ⟨whole, back, hne, hall, rfl, -⟩ := h
  refine ⟨sign, whole, _, hsign, hne, fun d hd => hall d (by simp [hd]), ?_,
    (List.append_assoc ..).symm⟩
  split
  · exact .inl rfl
  · exact .inr ⟨back, ‹_›, fun d hd => hall d (by simp [hd]), rfl⟩

theorem decimalText_intText (v : Int) : DecimalText (intText v).toList := by
  cases v with
  | ofNat n => exact (denotes_natText n).decimalText (.inl rfl)
  | negSucc n =>
    rw [intText_negSucc]
    exact (denotes_natText (n + 1)).decimalText (.inr rfl)

theorem decimalText_sourceLayout {F : Format} {x : Binary F} (hx : x.isFinite = true) :
    DecimalText (sourceLayout.text x).toList := by
  rw [text_of_isFinite sourceLayout hx, String.toList_append]
  obtain ⟨value, hvalue⟩ := denotes_sourceLayout x
  refine hvalue.decimalText ?_
  cases x.negative <;> simp

/-! ## Literals -/

/-- A kind with digits has a letter to write behind them. -/
theorem Primitive.exists_suffix {kind : Primitive} (h : kind ≠ .bool) :
    ∃ letter : Char, kind.suffix? = some (String.singleton letter) := by
  cases kind with
  | bool => exact absurd rfl h
  | byte => exact ⟨'B', rfl⟩
  | short => exact ⟨'S', rfl⟩
  | int => exact ⟨'I', rfl⟩
  | long => exact ⟨'L', rfl⟩
  | float => exact ⟨'F', rfl⟩
  | double => exact ⟨'D', rfl⟩

theorem Constant.render_const (c : Constant) : (Expr.const c).render = c.literal := by
  rw [← String.toList_inj]
  exact Node.render_toList _

namespace Constant

variable {c : Constant}

theorem literal_of_bool (h : c.kind = .bool) :
    c.literal = if c.value.isZero then "false" else "true" := by
  rw [literal, h]

/-- Digits that a kind can read stand in front of its letter. -/
theorem literal_of_digits (h : c.kind ≠ .bool) {digits : String}
    (hdigits : c.value.digits? c.kind = some digits) :
    ∃ letter : Char, c.kind.suffix? = some (String.singleton letter) ∧
      c.literal = digits ++ String.singleton letter := by
  obtain ⟨letter, hletter⟩ := Primitive.exists_suffix h
  refine ⟨letter, hletter, ?_⟩
  obtain ⟨kind, value⟩ := c
  rw [literal]
  cases kind <;> simp_all

/-- A number in the range of `float` is finite when it is narrowed for its text. -/
theorem isFinite_narrowed {x : Double} (h : Primitive.float.inRange x = true) :
    (x.convert Format.single).isFinite = true := by
  simp only [Primitive.inRange, Bool.and_eq_true, decide_eq_true_eq] at h
  exact Binary.isFinite_convert_of_le Format.single_widens_double (by decide) h.1 h.2

theorem validate_float_payload {kind : Primitive} {x : Double}
    (h : validate ⟨kind, .float x⟩ = .ok ()) :
    (kind = .float ∨ kind = .double) ∧ kind.inRange x = true := by
  rw [validate] at h
  cases kind <;> simp_all [Primitive.isFloating]

/-- A kind that can read a payload writes it as digits behind a sign. -/
theorem digits_of_validate (h : c.validate = .ok ()) :
    ∃ digits, c.value.digits? c.kind = some digits ∧ DecimalText digits.toList := by
  obtain ⟨kind, value⟩ := c
  cases value with
  | int v => exact ⟨_, rfl, decimalText_intText _⟩
  | float x =>
    obtain ⟨rfl | rfl, hrange⟩ := validate_float_payload h
    · exact ⟨_, rfl, decimalText_sourceLayout (isFinite_narrowed hrange)⟩
    · exact ⟨_, rfl, decimalText_sourceLayout hrange⟩

/-- A constant that its kind can read is written as a literal: a word for a truth value, and
otherwise a sign or none, digits with a point among them or none, and the letter of the kind. What
is narrowed for the text of a `float` stays finite. -/
theorem render_of_validate (h : c.validate = .ok ()) :
    (c.kind = .bool → (Expr.const c).render = "true" ∨ (Expr.const c).render = "false") ∧
    (c.kind ≠ .bool → ∃ t letter, DecimalText t ∧
      c.kind.suffix? = some (String.singleton letter) ∧
      (Expr.const c).render.toList = t ++ [letter]) ∧
    ∀ x, c = ⟨.float, .float x⟩ → (x.convert Format.single).isFinite = true := by
  rw [render_const]
  refine ⟨?_, ?_, ?_⟩
  · intro hkind
    rw [literal_of_bool hkind]
    cases c.value.isZero
    · exact .inl rfl
    · exact .inr rfl
  · intro hkind
    obtain ⟨digits, hdigits, hdecimal⟩ := digits_of_validate h
    obtain ⟨letter, hletter, hliteral⟩ := literal_of_digits hkind hdigits
    refine ⟨digits.toList, letter, hdecimal, hletter, ?_⟩
    rw [hliteral, String.toList_append, String.toList_singleton]
  · rintro x rfl
    exact isFinite_narrowed (validate_float_payload h).2

/-- A number between the two largest ones of 32 bits, which is rounded up for its text. -/
theorem render_of_validate_below_largest :
    let x : Double := ⟨true, 0x47EFFFFFDFFFFFFF, by decide⟩
    validate ⟨.float, .float x⟩ = .ok () ∧ (x.convert Format.single).isFinite = true ∧
      ∃ t letter, DecimalText t ∧ some "F" = some (String.singleton letter) ∧
        (Expr.const ⟨.float, .float x⟩).render.toList = t ++ [letter] :=
  have valid := by decide +kernel
  ⟨valid, (render_of_validate valid).2.2 _ rfl, (render_of_validate valid).2.1 (by decide)⟩

/-! ## Numbers of 32 bits -/

theorem literal_float {x : Single} (hx : x.isFinite = true) :
    (Constant.float x).literal = sourceLayout.text x ++ "F" := by
  change sourceLayout.text ((x.convert Format.double).convert Format.single) ++ "F" = _
  rw [Binary.convert_convert Format.single_widens_double hx]

/-- A finite 32-bit number keeps its value in a `float` constant: the constant passes its check,
narrowing gives the number back that was widened, and the text is the number's own, with as few
digits as any decimal that is rounded to it. -/
theorem render_float {x : Single} (hx : x.isFinite = true) :
    (Constant.float x).validate = .ok () ∧
    (x.convert Format.double).convert Format.single = x ∧
    (Expr.const (.float x)).render = sourceLayout.text x ++ "F" ∧
    ∃ digits, sourceLayout.text x = (if x.negative then "-" else "") ++ digits ∧
      if x.isZero then digits = "0"
      else ∃ d : Decimal, d.IsShortest Format.single x.magnitude ∧
        Denotes digits.toList d.value := by
  refine ⟨validate_float hx, Binary.convert_convert Format.single_widens_double hx, ?_, ?_⟩
  · rw [render_const, literal_float hx]
  · refine ⟨sourceLayout.magnitude x, text_of_isFinite sourceLayout hx, ?_⟩
    rw [Layout.magnitude]
    split
    · rfl
    · next hzero =>
      have hpos : 0 < x.magnitude := Nat.pos_of_ne_zero (by simpa [Binary.isZero] using hzero)
      exact ⟨_, Format.isShortest_shortest .up (by decide) hpos (Binary.isFinite_iff.mp hx),
        denotes_plain _⟩

/-- The number nearest to zero among the negative ones, which has no leading bit. -/
theorem render_float_smallest :
    let x : Single := ⟨true, 1, by decide⟩
    (x.convert Format.double).convert Format.single = x ∧
      (Expr.const (.float x)).render = sourceLayout.text x ++ "F" :=
  have kept := render_float (x := ⟨true, 1, by decide⟩) (by decide)
  ⟨kept.2.1, kept.2.2.1⟩

end Constant

end SyntaxForest
