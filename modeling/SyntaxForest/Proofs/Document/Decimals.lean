import SyntaxForest.Proofs.Document.Numbers
import SyntaxForest.Proofs.Numeric.Shortest

/-!
# What is read from the text of a decimal

A decimal is written with or without an exponent, as its size demands. Whatever the layout, the
reader finds its digits and its power of ten again (`unsignedNumber_decimal`). A whole number that is
written without an exponent has a zero behind its point, which counts as one more digit.
-/

namespace SyntaxForest.Document

open Numeric

/-! ## Runs of digits -/

theorem takeNat_eq {ds : List Char} (value : Nat) (hds : AllDigits ds) :
    takeNat value ds = (Nat.ofDigitChars 10 ds value, []) := by
  induction ds generalizing value with
  | nil => simp [takeNat]
  | cons c ds ih =>
    obtain ⟨hc, hds⟩ := hds.cons
    rw [takeNat, if_pos hc, ih _ hds, Nat.ofDigitChars_cons, Nat.mul_comm]
    rfl

section

variable {ds rest : List Char} (negative : Bool)

/-- Digits behind the point go into the significand and count towards the power of ten. -/
theorem fraction_append {significand : Nat} (hne : ds ≠ []) (hds : AllDigits ds)
    (hstop : startsWithDigit rest = false)
    (h : Nat.ofDigitChars 10 ds significand < unsignedBound) :
    fraction negative significand 0 (ds ++ rest) =
      scaled negative (Nat.ofDigitChars 10 ds significand) (-(ds.length : Int)) rest := by
  have hpos : ds.length ≠ 0 := fun hzero => hne (List.length_eq_zero_iff.mp hzero)
  simp only [fraction, dropDigits_takeDigits significand hds hstop]
  rw [takeDigits_append significand hds hstop, takeDigits_eq_ofDigitChars hds h]
  simp [hpos]

/-- Digits before the point go into the significand. -/
theorem unsignedNumber_append {c : Char} (hc : c ≠ '0') (hds : AllDigits (c :: ds))
    (hstop : startsWithDigit rest = false)
    (h : Nat.ofDigitChars 10 (c :: ds) 0 < unsignedBound) :
    unsignedNumber negative (c :: ds ++ rest) =
      afterWhole negative (Nat.ofDigitChars 10 (c :: ds) 0) 0 rest := by
  obtain ⟨hdigit, hds⟩ := hds.cons
  have hvalue : Nat.ofDigitChars 10 (c :: ds) 0 = Nat.ofDigitChars 10 ds (digitValue c) := by
    rw [Nat.ofDigitChars_cons, Nat.mul_zero, Nat.zero_add]
    rfl
  rw [hvalue] at h ⊢
  simp only [List.cons_append, unsignedNumber, hc, if_false, hdigit, if_true,
    dropDigits_takeDigits _ hds hstop]
  rw [takeDigits_append _ hds hstop, takeDigits_eq_ofDigitChars hds h]
  rfl

theorem scaled_of_exponentPart {s : List Char} (significand : Nat) (tens : Int) {exponent : Int}
    (h : exponentPart s = .ok (exponent, rest)) :
    (scaled negative significand tens s).toOption =
      (Double.ofScientific? negative significand (tens + exponent)).map
        fun x => (.float x, rest) := by
  cases hx : Double.ofScientific? negative significand (tens + exponent) <;>
    simp [scaled, h, hx, Except.toOption]

/-- A number without an exponent. -/
theorem scaled_end (significand : Nat) (tens : Int) (hr : EndsNumber rest) :
    (scaled negative significand tens rest).toOption =
      (Double.ofScientific? negative significand tens).map fun x => (.float x, rest) := by
  rw [scaled_of_exponentPart negative significand tens hr.exponentPart, Int.add_zero]

/-- A number with an exponent. -/
theorem scaled_mark (significand : Nat) (tens lead : Int) (hr : EndsNumber rest) :
    (scaled negative significand tens ((if lead < 0 then "e-" else "e+").toList ++
      ((natText lead.natAbs).toList ++ rest))).toOption =
      (Double.ofScientific? negative significand (tens + lead)).map fun x => (.float x, rest) := by
  have hdigits (sign : Bool) : exponentDigits sign ((natText lead.natAbs).toList ++ rest) =
      .ok (if sign then -(lead.natAbs : Int) else lead.natAbs, rest) := by
    have hall := allDigits_natText lead.natAbs
    have hvalue := Nat.ofDigitChars_ten_toDigits (n := lead.natAbs)
    rw [← natText_toList] at hvalue
    cases hds : (natText lead.natAbs).toList with
    | nil =>
      obtain ⟨d, ds, hcons, -⟩ := natText_cons lead.natAbs
      rw [hds] at hcons
      cases hcons
    | cons c ds =>
      rw [hds] at hall hvalue
      obtain ⟨hc, hall⟩ := hall.cons
      rw [Nat.ofDigitChars_cons, Nat.mul_zero, Nat.zero_add] at hvalue
      rw [List.cons_append, exponentDigits, if_pos hc, takeNat_append _ hall hr.startsWithDigit,
        takeNat_eq _ hall, show digitValue c = c.toNat - '0'.toNat from rfl, hvalue]
  apply scaled_of_exponentPart
  split
  · next hneg =>
    have habs : -(lead.natAbs : Int) = lead := by omega
    have hread := hdigits true
    rw [if_pos rfl, habs] at hread
    exact hread
  · next hneg =>
    have habs : (lead.natAbs : Int) = lead := by omega
    have hread := hdigits false
    rw [if_neg (by decide), habs] at hread
    exact hread

end

/-! ## Layouts of a decimal -/

/-- The significand and the power of ten that are read from the text of a decimal. They are its own,
unless it is a whole number that is written without an exponent. -/
def reading (d : Decimal) : Nat × Int :=
  if 0 ≤ d.exponent ∧ d.exponent + (Nat.toDigits 10 d.digits).length ≤ 16 then
    (d.digits * 10 ^ (d.exponent.toNat + 1), -1)
  else (d.digits, d.exponent)

section

variable (negative : Bool) {d : Decimal} {rest : List Char}

/-- A whole number that is written without an exponent has a significand of 64 bits, also with the
zero behind its point. -/
theorem reading_whole_lt (hexp : 0 ≤ d.exponent)
    (hlead : d.exponent + (Nat.toDigits 10 d.digits).length ≤ 16) :
    d.digits * 10 ^ (d.exponent.toNat + 1) < unsignedBound := by
  have hlength : 0 < (Nat.toDigits 10 d.digits).length :=
    List.length_pos_iff.mpr Nat.toDigits_ne_nil
  have hdigits : d.digits < 10 ^ (16 - d.exponent.toNat) :=
    (Nat.length_toDigits_le_iff (by decide) (by omega)).mp (by omega)
  have hsum : 16 - d.exponent.toNat + (d.exponent.toNat + 1) = 17 := by omega
  calc d.digits * 10 ^ (d.exponent.toNat + 1)
    _ ≤ 10 ^ (16 - d.exponent.toNat) * 10 ^ (d.exponent.toNat + 1) :=
      Nat.mul_le_mul_right _ (Nat.le_of_lt hdigits)
    _ = 10 ^ 17 := by rw [← Nat.pow_add, hsum]
    _ < unsignedBound := by decide

/-- The digits of a positive number do not start with a zero. -/
theorem toDigits_cons {n : Nat} (hpos : 0 < n) :
    ∃ c ds, Nat.toDigits 10 n = c :: ds ∧ c ≠ '0' ∧ AllDigits (c :: ds) := by
  cases hdigits : Nat.toDigits 10 n with
  | nil => exact absurd hdigits Nat.toDigits_ne_nil
  | cons c ds =>
    refine ⟨c, ds, rfl, ?_, hdigits ▸ allDigits_toDigits n⟩
    rintro rfl
    have := eq_zero_of_toDigits hdigits
    omega

/-- What is read from a point on. -/
theorem afterWhole_point {significand : Nat} {s : List Char} :
    afterWhole negative significand 0 ('.' :: s) = fraction negative significand 0 s := by
  simp [afterWhole]

/-- Digits on either side of a point. -/
theorem unsignedNumber_point {front back : List Char} {n : Nat} (hn : n < unsignedBound)
    {c : Char} {ds : List Char} (hfront : front = c :: ds) (hc : c ≠ '0') (hback : back ≠ [])
    (hds : AllDigits (front ++ back)) (hvalue : Nat.ofDigitChars 10 (front ++ back) 0 = n)
    (hstop : startsWithDigit rest = false) :
    unsignedNumber negative (front ++ '.' :: (back ++ rest)) =
      scaled negative n (-(back.length : Int)) rest := by
  subst hfront
  have hds_front : AllDigits (c :: ds) := hds.sublist (List.sublist_append_left _ _)
  have hds_back : AllDigits back := hds.sublist (List.sublist_append_right _ _)
  rw [Nat.ofDigitChars_append] at hvalue
  have hle := le_ofDigitChars back (Nat.ofDigitChars 10 (c :: ds) 0)
  rw [unsignedNumber_append negative hc hds_front rfl (by omega), afterWhole_point,
    fraction_append negative hback hds_back hstop (by omega), hvalue]

theorem ofDigitChars_zeros (n init : Nat) :
    Nat.ofDigitChars 10 (Layout.zeros n).toList init = init * 10 ^ n := by
  rw [Layout.zeros, String.toList_ofList, Nat.ofDigitChars_replicate_zero, Nat.mul_comm]

/-- A whole number without an exponent. -/
theorem unsignedNumber_whole (hpos : 0 < d.digits) (hexp : 0 ≤ d.exponent)
    (hn : d.digits * 10 ^ (d.exponent.toNat + 1) < unsignedBound) (hr : EndsNumber rest) :
    (unsignedNumber negative ((documentLayout.plain d).toList ++ rest)).toOption =
      (Double.ofScientific? negative (d.digits * 10 ^ (d.exponent.toNat + 1)) (-1)).map
        fun x => (.float x, rest) := by
  obtain ⟨c, ds, hdigits, hc, hall⟩ := toDigits_cons hpos
  have htext : (documentLayout.plain d).toList ++ rest =
      (c :: (ds ++ (Layout.zeros d.exponent.toNat).toList)) ++ '.' :: (['0'] ++ rest) := by
    simp [Layout.plain, hexp, hdigits, documentLayout]
  have hvalue : Nat.ofDigitChars 10
      ((c :: (ds ++ (Layout.zeros d.exponent.toNat).toList)) ++ ['0']) 0 =
      d.digits * 10 ^ (d.exponent.toNat + 1) := by
    rw [← List.cons_append, ← hdigits, Nat.ofDigitChars_append, Nat.ofDigitChars_append,
      Nat.ofDigitChars_ten_toDigits, ofDigitChars_zeros, Nat.pow_succ, ← Nat.mul_assoc]
    simp [Nat.ofDigitChars_cons, Nat.mul_comm]
  have hds : AllDigits ((c :: (ds ++ (Layout.zeros d.exponent.toNat).toList)) ++ ['0']) := by
    rw [← List.cons_append]
    exact (hall.append (allDigits_zeros _)).append (by simp [AllDigits])
  rw [htext, unsignedNumber_point negative hn rfl hc (by simp) hds hvalue hr.startsWithDigit]
  exact scaled_end negative _ _ hr

/-- A decimal with a point among its digits. -/
theorem unsignedNumber_inner (hpos : 0 < d.digits) (hexp : d.exponent < 0)
    (hlead : 0 ≤ d.exponent + (Nat.toDigits 10 d.digits).length - 1)
    (hn : d.digits < unsignedBound) (hr : EndsNumber rest) :
    (unsignedNumber negative ((documentLayout.plain d).toList ++ rest)).toOption =
      (Double.ofScientific? negative d.digits d.exponent).map fun x => (.float x, rest) := by
  obtain ⟨c, ds, hdigits, hc, hall⟩ := toDigits_cons hpos
  have hvalue := Nat.ofDigitChars_ten_toDigits (n := d.digits)
  have hlength : (Nat.toDigits 10 d.digits).length = ds.length + 1 := by rw [hdigits]; rfl
  let place := (d.exponent + (Nat.toDigits 10 d.digits).length - 1).toNat
  have htext : (documentLayout.plain d).toList ++ rest = (c :: ds.take place) ++
      '.' :: (ds.drop place ++ rest) := by
    simp only [Layout.plain, if_neg (show ¬0 ≤ d.exponent by omega), if_pos hlead]
    simp [List.splitAt_eq, hdigits, place]
  have hback : ds.drop place ≠ [] := by
    rw [← List.length_pos_iff, List.length_drop]
    omega
  have happend : (c :: ds.take place) ++ ds.drop place = c :: ds := by simp
  have htens : -((ds.drop place).length : Int) = d.exponent := by
    rw [List.length_drop]
    omega
  rw [hdigits] at hvalue
  rw [htext, unsignedNumber_point negative hn rfl hc hback (by rw [happend]; exact hall)
    (by rw [happend]; exact hvalue) hr.startsWithDigit, htens]
  exact scaled_end negative _ _ hr

theorem unsignedNumber_zero_point (s : List Char) :
    unsignedNumber negative ('0' :: '.' :: s) = fraction negative 0 0 s := by
  simp [unsignedNumber, startsWithDigit, afterWhole]

/-- A decimal with a point and perhaps zeros before its digits. -/
theorem unsignedNumber_small (hpos : 0 < d.digits) (hexp : d.exponent < 0)
    (hlead : ¬0 ≤ d.exponent + (Nat.toDigits 10 d.digits).length - 1)
    (hn : d.digits < unsignedBound) (hr : EndsNumber rest) :
    (unsignedNumber negative ((documentLayout.plain d).toList ++ rest)).toOption =
      (Double.ofScientific? negative d.digits d.exponent).map fun x => (.float x, rest) := by
  obtain ⟨c, ds, hdigits, -, -⟩ := toDigits_cons hpos
  let n := (-(d.exponent + (Nat.toDigits 10 d.digits).length - 1) - 1).toNat
  let t := (Layout.zeros n).toList ++ Nat.toDigits 10 d.digits
  have htext : (documentLayout.plain d).toList ++ rest = '0' :: '.' :: (t ++ rest) := by
    simp only [Layout.plain, if_neg (show ¬0 ≤ d.exponent by omega), if_neg hlead,
      String.toList_append, String.toList_ofList, List.append_assoc, t, n]
    rfl
  have hne : t ≠ [] := by simp [t, hdigits]
  have hds : AllDigits t := (allDigits_zeros n).append (allDigits_toDigits d.digits)
  have hvalue : Nat.ofDigitChars 10 t 0 = d.digits := by
    rw [Nat.ofDigitChars_append, ofDigitChars_zeros, Nat.zero_mul, Nat.ofDigitChars_ten_toDigits]
  have htens : -(t.length : Int) = d.exponent := by
    simp only [t, n, Layout.zeros, String.toList_ofList, List.length_append, List.length_replicate]
    omega
  rw [htext, unsignedNumber_zero_point,
    fraction_append negative hne hds hr.startsWithDigit (by rw [hvalue]; exact hn), hvalue, htens]
  exact scaled_end negative _ _ hr

/-- A decimal with an exponent. -/
theorem unsignedNumber_scientific (hpos : 0 < d.digits) (hn : d.digits < unsignedBound)
    (hr : EndsNumber rest) :
    (unsignedNumber negative ((Layout.scientific d).toList ++ rest)).toOption =
      (Double.ofScientific? negative d.digits d.exponent).map fun x => (.float x, rest) := by
  obtain ⟨c, ds, hdigits, hc, hall⟩ := toDigits_cons hpos
  have hvalue := Nat.ofDigitChars_ten_toDigits (n := d.digits)
  rw [hdigits] at hvalue
  have hmark (lead : Int) (t : List Char) :
      startsWithDigit ((if lead < 0 then "e-" else "e+").toList ++ t) = false := by
    split <;> rfl
  let lead := d.exponent + (Nat.toDigits 10 d.digits).length - 1
  cases ds with
  | nil =>
    have htext : (Layout.scientific d).toList ++ rest = [c] ++
        ((if lead < 0 then "e-" else "e+").toList ++ ((natText lead.natAbs).toList ++ rest)) := by
      simp [Layout.scientific, hdigits, lead]
    have hafter : afterWhole negative d.digits 0
        ((if lead < 0 then "e-" else "e+").toList ++ ((natText lead.natAbs).toList ++ rest)) =
        scaled negative d.digits 0
          ((if lead < 0 then "e-" else "e+").toList ++ ((natText lead.natAbs).toList ++ rest)) := by
      split <;> rfl
    have hlead : 0 + lead = d.exponent := by
      simp only [lead, hdigits, List.length_singleton]
      omega
    rw [htext, unsignedNumber_append negative hc hall (hmark _ _) (hvalue.symm ▸ hn), hvalue, hafter,
      scaled_mark negative _ _ _ hr, hlead]
  | cons c' ds =>
    have htext : (Layout.scientific d).toList ++ rest = [c] ++ '.' :: ((c' :: ds) ++
        ((if lead < 0 then "e-" else "e+").toList ++ ((natText lead.natAbs).toList ++ rest))) := by
      simp [Layout.scientific, hdigits, lead]
    have hlead : -((c' :: ds).length : Int) + lead = d.exponent := by
      simp only [lead, hdigits, List.length_cons]
      omega
    rw [htext, unsignedNumber_point negative hn rfl hc (by simp) hall hvalue (hmark _ _),
      scaled_mark negative _ _ _ hr, hlead]

/-- The reader finds the digits and the power of ten of a decimal in its text. -/
theorem unsignedNumber_decimal (hpos : 0 < d.digits) (hn : d.digits < unsignedBound)
    (hr : EndsNumber rest) :
    (unsignedNumber negative ((documentLayout.decimal d).toList ++ rest)).toOption =
      (Double.ofScientific? negative (reading d).1 (reading d).2).map fun x => (.float x, rest) := by
  have hlength : 0 < (Nat.toDigits 10 d.digits).length :=
    List.length_pos_iff.mpr Nat.toDigits_ne_nil
  have hdecimal : documentLayout.decimal d =
      if -5 ≤ d.exponent + (Nat.toDigits 10 d.digits).length - 1 ∧
        d.exponent + (Nat.toDigits 10 d.digits).length - 1 < 16
      then documentLayout.plain d else Layout.scientific d := by
    simp [Layout.decimal, documentLayout]
  rw [hdecimal]
  by_cases hwhole : 0 ≤ d.exponent ∧ d.exponent + (Nat.toDigits 10 d.digits).length ≤ 16
  · rw [reading, if_pos hwhole, if_pos (by omega)]
    exact unsignedNumber_whole negative hpos hwhole.1 (reading_whole_lt hwhole.1 hwhole.2) hr
  · rw [reading, if_neg hwhole]
    split
    · by_cases hlead : 0 ≤ d.exponent + (Nat.toDigits 10 d.digits).length - 1
      · exact unsignedNumber_inner negative hpos (by omega) hlead hn hr
      · exact unsignedNumber_small negative hpos (by omega) hlead hn hr
    · exact unsignedNumber_scientific negative hpos hn hr

end

end SyntaxForest.Document
