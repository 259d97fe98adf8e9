import SyntaxForest.Proofs.Document.Reading
import SyntaxForest.Proofs.Numeric.Digits

/-!
# Numbers read back

The text of a finite number is a run of digits, a fraction that may be missing and an exponent that
may be missing. The reader of numbers takes all of such a text, whatever it makes of it
(`number_yields_documentLayout`); a whole number that fits into 64 bits is read as itself
(`number_yields_intText`).
-/

namespace SyntaxForest.Document

open Numeric

/-! ## Runs of digits -/

theorem allDigits_zeros (n : Nat) : AllDigits (Layout.zeros n).toList := by
  intro c hc
  simp only [Layout.zeros, String.toList_ofList, List.mem_replicate] at hc
  rw [hc.2]
  rfl

theorem EndsNumber.startsWithDigit {rest : List Char} (h : EndsNumber rest) :
    startsWithDigit rest = false := by
  cases rest with
  | nil => rfl
  | cons c s => exact (h c s rfl).1

theorem EndsNumber.exponentPart {rest : List Char} (h : EndsNumber rest) :
    exponentPart rest = .ok (0, rest) := by
  cases rest with
  | nil => rfl
  | cons c s =>
    obtain ⟨-, -, he, hE⟩ := h c s rfl
    simp [Document.exponentPart, he, hE]

section

variable {ds rest : List Char}

theorem dropDigits_append (hds : AllDigits ds) (hr : startsWithDigit rest = false) :
    dropDigits (ds ++ rest) = (ds.length, rest) := by
  induction ds with
  | nil => cases rest <;> simp_all [dropDigits, startsWithDigit]
  | cons c ds ih =>
    obtain ⟨hc, hds⟩ := hds.cons
    simp [dropDigits, hc, ih hds]

/-- Digits are taken into a number of any size until there are no more. -/
theorem takeNat_append (value : Nat) (hds : AllDigits ds) (hr : startsWithDigit rest = false) :
    takeNat value (ds ++ rest) = ((takeNat value ds).1, rest) := by
  induction ds generalizing value with
  | nil => cases rest <;> simp_all [takeNat, startsWithDigit]
  | cons c ds ih =>
    obtain ⟨hc, hds⟩ := hds.cons
    simp [takeNat, hc, ih _ hds]

/-- What a run of digits leaves of itself does not depend on what follows it. -/
theorem takeDigits_append (significand : Nat) (hds : AllDigits ds)
    (hr : startsWithDigit rest = false) :
    takeDigits significand (ds ++ rest) =
      ((takeDigits significand ds).1, (takeDigits significand ds).2.1,
        (takeDigits significand ds).2.2 ++ rest) := by
  induction ds generalizing significand with
  | nil => cases rest <;> simp_all [takeDigits, startsWithDigit]
  | cons c ds ih =>
    obtain ⟨hc, hds⟩ := hds.cons
    simp only [List.cons_append, takeDigits]
    split
    · simp [ih _ hds]
    · rfl

theorem takeDigits_sublist (significand : Nat) (ds : List Char) :
    (takeDigits significand ds).2.2.Sublist ds := by
  induction ds generalizing significand with
  | nil => simp [takeDigits]
  | cons c ds ih =>
    rw [takeDigits]
    split
    · exact (ih _).cons c
    · exact .refl _

theorem takeDigits_count (significand : Nat) (ds : List Char) :
    (takeDigits significand ds).2.1 + (takeDigits significand ds).2.2.length = ds.length := by
  induction ds generalizing significand with
  | nil => simp [takeDigits]
  | cons c ds ih =>
    rw [takeDigits]
    split
    · have := ih (significand * 10 + digitValue c)
      simp only [List.length_cons]
      omega
    · simp

/-- Taking digits and dropping those that do not fit consumes the whole run. -/
theorem dropDigits_takeDigits (significand : Nat) (hds : AllDigits ds)
    (hr : startsWithDigit rest = false) :
    dropDigits (takeDigits significand (ds ++ rest)).2.2 =
      ((takeDigits significand ds).2.2.length, rest) := by
  rw [takeDigits_append significand hds hr]
  exact dropDigits_append (hds.sublist (takeDigits_sublist _ _)) hr

end

/-! ## The text of a number -/

/-- The part of a number behind its point, with the point, or nothing. -/
def FractionText (t : List Char) : Prop :=
  t = [] ∨ ∃ ds, ds ≠ [] ∧ AllDigits ds ∧ t = '.' :: ds

/-- The exponent of a number, with its letter and sign, or nothing. -/
def ExponentText (t : List Char) : Prop :=
  t = [] ∨ ∃ sign ds, (sign = '+' ∨ sign = '-') ∧ ds ≠ [] ∧ AllDigits ds ∧ t = 'e' :: sign :: ds

/-- The text of a number without its sign. -/
def NumberText (t : List Char) : Prop :=
  ∃ whole fraction exponent, whole ≠ [] ∧ AllDigits whole ∧ FractionText fraction ∧
    ExponentText exponent ∧ t = whole ++ (fraction ++ exponent)

/-- A scanner takes exactly the text off the front of whatever ends a number, and what it makes of
the text, if anything, does not depend on what follows. -/
def Settles {α : Type} (scan : List Char → Outcome α) (t : List Char) : Prop :=
  ∃ outcome : Option α, ∀ rest, EndsNumber rest →
    (scan (t ++ rest)).toOption = outcome.map (·, rest)

theorem ExponentText.startsWithDigit {t rest : List Char} (h : ExponentText t)
    (hr : EndsNumber rest) : startsWithDigit (t ++ rest) = false := by
  rcases h with rfl | ⟨sign, ds, -, -, -, rfl⟩
  · exact hr.startsWithDigit
  · rfl

theorem FractionText.startsWithDigit {t rest : List Char} (h : FractionText t)
    (hr : startsWithDigit rest = false) : startsWithDigit (t ++ rest) = false := by
  rcases h with rfl | ⟨ds, -, -, rfl⟩
  · exact hr
  · rfl

/-- The text of a number starts with a digit. -/
theorem NumberText.cons {t : List Char} (h : NumberText t) :
    ∃ c s, t = c :: s ∧ c.isDigit = true := by
  obtain ⟨whole, f, e, hne, hwhole, -, -, rfl⟩ := h
  cases whole with
  | nil => exact absurd rfl hne
  | cons c ds => exact ⟨c, _, rfl, hwhole.cons.1⟩

theorem exponentDigits_settles (negative : Bool) {ds : List Char} (hne : ds ≠ [])
    (hds : AllDigits ds) : Settles (exponentDigits negative) ds := by
  cases ds with
  | nil => exact absurd rfl hne
  | cons c ds =>
    obtain ⟨hc, hds⟩ := hds.cons
    have taken (rest : List Char) (hr : EndsNumber rest) :=
      takeNat_append (digitValue c) hds hr.startsWithDigit
    refine ⟨some (if negative then -((takeNat (digitValue c) ds).1 : Int)
      else (takeNat (digitValue c) ds).1), ?_⟩
    intro rest hr
    simp [exponentDigits, hc, taken rest hr, Except.toOption]

theorem exponentPart_settles {t : List Char} (h : ExponentText t) : Settles exponentPart t := by
  rcases h with rfl | ⟨sign, ds, hsign, hne, hds, rfl⟩
  · refine ⟨some 0, ?_⟩
    intro rest hr
    cases rest with
    | nil => rfl
    | cons c s =>
      obtain ⟨-, -, he, hE⟩ := hr c s rfl
      simp [exponentPart, he, hE, Except.toOption]
  · obtain ⟨outcome, h⟩ := exponentDigits_settles (sign = '-') hne hds
    refine ⟨outcome, ?_⟩
    intro rest hr
    rw [← h rest hr]
    rcases hsign with rfl | rfl <;> simp [exponentPart, signedExponent]

theorem scaled_settles (negative : Bool) (significand : Nat) (tens : Int) {t : List Char}
    (h : ExponentText t) : Settles (scaled negative significand tens) t := by
  obtain ⟨outcome, h⟩ := exponentPart_settles h
  refine ⟨outcome.bind fun exponent =>
    (Double.ofScientific? negative significand (tens + exponent)).map .float, ?_⟩
  intro rest hr
  have hexp := h rest hr
  cases hpart : exponentPart (t ++ rest) with
  | error e =>
    cases outcome <;> simp_all [scaled, Except.toOption]
  | ok result =>
    cases outcome with
    | none => simp [hpart, Except.toOption] at hexp
    | some exponent =>
      simp only [hpart, Except.toOption, Option.map_some, Option.some.injEq] at hexp
      subst hexp
      cases hx : Double.ofScientific? negative significand (tens + exponent) <;>
        simp [scaled, hpart, hx, Except.toOption]

theorem fraction_settles (negative : Bool) (significand dropped : Nat) {ds t : List Char}
    (hne : ds ≠ []) (hds : AllDigits ds) (h : ExponentText t) :
    Settles (fraction negative significand dropped) (ds ++ t) := by
  obtain ⟨outcome, hscaled⟩ := scaled_settles negative (takeDigits significand ds).1
    ((dropped : Int) - (takeDigits significand ds).2.1) h
  refine ⟨outcome, ?_⟩
  intro rest hr
  have hstop := h.startsWithDigit hr
  have hcount := takeDigits_count significand ds
  have hpos : 0 < ds.length := List.length_pos_iff.mpr hne
  -- Of the digits behind the point at least one was taken or dropped, so none is missing.
  have hsome : ¬((takeDigits significand ds).2.1 = 0 ∧
      (takeDigits significand ds).2.2.length = 0) := by omega
  rw [← hscaled rest hr, List.append_assoc]
  simp only [fraction, dropDigits_takeDigits significand hds hstop]
  simp only [takeDigits_append significand hds hstop]
  rw [if_neg (by simpa using hsome)]

theorem afterWhole_settles (negative : Bool) (significand dropped : Nat) {f t : List Char}
    (hf : FractionText f) (h : ExponentText t) :
    Settles (afterWhole negative significand dropped) (f ++ t) := by
  rcases hf with rfl | ⟨ds, hne, hds, rfl⟩
  · obtain ⟨outcome, hscaled⟩ := scaled_settles negative significand dropped h
    -- Without fraction, exponent and dropped digits the number is whole.
    by_cases hwhole : t = [] ∧ dropped = 0
    · obtain ⟨rfl, rfl⟩ := hwhole
      refine ⟨some (wholeNumber negative significand), ?_⟩
      intro rest hr
      cases rest with
      | nil => rfl
      | cons c s =>
        obtain ⟨-, hp, he, hE⟩ := hr c s rfl
        simp [afterWhole, hp, he, hE, Except.toOption]
    · refine ⟨outcome, ?_⟩
      intro rest hr
      rw [← hscaled rest hr]
      rcases h with rfl | ⟨sign, es, -, -, -, rfl⟩
      · have hdropped : dropped ≠ 0 := fun h => hwhole ⟨rfl, h⟩
        cases rest with
        | nil => simp [afterWhole, hdropped]
        | cons c s => simp [afterWhole, hdropped, (hr c s rfl).2.1]
      · simp [afterWhole]
  · obtain ⟨outcome, hfraction⟩ := fraction_settles negative significand dropped hne hds h
    refine ⟨outcome, ?_⟩
    intro rest hr
    rw [← hfraction rest hr]
    simp [afterWhole]

/-- The text of a number is taken to its end, if the reader finds no fault in it. -/
theorem unsignedNumber_settles (negative : Bool) {t : List Char} (h : NumberText t) :
    Settles (unsignedNumber negative) t := by
  obtain ⟨whole, f, e, hne, hwhole, hf, he, rfl⟩ := h
  cases whole with
  | nil => exact absurd rfl hne
  | cons c ds =>
    obtain ⟨hc, hds⟩ := hwhole.cons
    by_cases hzero : c = '0'
    · subst hzero
      cases ds with
      | nil =>
        obtain ⟨outcome, hafter⟩ := afterWhole_settles negative 0 0 hf he
        refine ⟨outcome, ?_⟩
        intro rest hr
        have hstop : startsWithDigit (f ++ (e ++ rest)) = false :=
          hf.startsWithDigit (he.startsWithDigit hr)
        rw [← hafter rest hr]
        simp [unsignedNumber, hstop]
      | cons d ds =>
        -- A digit behind a leading zero is a fault, whatever follows.
        refine ⟨none, ?_⟩
        intro rest _
        simp [unsignedNumber, startsWithDigit, hds.cons.1, Except.toOption]
    · obtain ⟨outcome, hafter⟩ := afterWhole_settles negative (takeDigits (digitValue c) ds).1
        (takeDigits (digitValue c) ds).2.2.length hf he
      refine ⟨outcome, ?_⟩
      intro rest hr
      have hstop : startsWithDigit (f ++ (e ++ rest)) = false :=
        hf.startsWithDigit (he.startsWithDigit hr)
      rw [← hafter rest hr, List.append_assoc f e rest]
      simp only [List.cons_append, List.append_assoc, unsignedNumber, hzero, if_false, hc, if_true,
        dropDigits_takeDigits _ hds hstop]
      rw [takeDigits_append _ hds hstop]

/-! ## Laying a number out -/

section

variable (L : Layout)

theorem numberText_plain (hL : FractionText L.whole.toList) (d : Decimal) :
    NumberText (L.plain d).toList := by
  have hds := allDigits_toDigits d.digits
  have hne : Nat.toDigits 10 d.digits ≠ [] := Nat.toDigits_ne_nil
  have hpos : 0 < (Nat.toDigits 10 d.digits).length := List.length_pos_iff.mpr hne
  rw [Layout.plain]
  split
  · refine ⟨Nat.toDigits 10 d.digits ++ (Layout.zeros d.exponent.toNat).toList, L.whole.toList, [],
      by simp [hne], hds.append (allDigits_zeros _), hL, .inl rfl, by simp⟩
  split
  · next hexp hlead =>
    -- The point stands inside the digits, so there are some on either side of it.
    let place := (d.exponent + (Nat.toDigits 10 d.digits).length - 1).toNat + 1
    refine ⟨(Nat.toDigits 10 d.digits).take place, '.' :: (Nat.toDigits 10 d.digits).drop place, [],
      ?_, hds.sublist (List.take_sublist _ _),
      .inr ⟨_, ?_, hds.sublist (List.drop_sublist _ _), rfl⟩, .inl rfl, ?_⟩
    · rw [← List.length_pos_iff, List.length_take]
      omega
    · rw [← List.length_pos_iff, List.length_drop]
      omega
    · simp [List.splitAt_eq, place]
  · simp only [String.toList_append]
    exact ⟨['0'], '.' :: (_ ++ Nat.toDigits 10 d.digits), [], by simp, by simp [AllDigits],
      .inr ⟨_, by simp [hne], (allDigits_zeros _).append hds, rfl⟩, .inl rfl, by simp; rfl⟩

theorem exponentText_mark (lead : Int) (n : Nat) :
    ExponentText ((if lead < 0 then "e-" else "e+").toList ++ (natText n).toList) := by
  have hne : (natText n).toList ≠ [] := by simp [natText, Nat.toDigits_ne_nil]
  have hds : AllDigits (natText n).toList := by simpa [natText] using allDigits_toDigits n
  split
  · exact .inr ⟨'-', _, .inr rfl, hne, hds, rfl⟩
  · exact .inr ⟨'+', _, .inl rfl, hne, hds, rfl⟩

theorem numberText_scientific (d : Decimal) : NumberText (Layout.scientific d).toList := by
  have hds := allDigits_toDigits d.digits
  have hne : Nat.toDigits 10 d.digits ≠ [] := Nat.toDigits_ne_nil
  have hexp := exponentText_mark (d.exponent + (Nat.toDigits 10 d.digits).length - 1)
    (d.exponent + (Nat.toDigits 10 d.digits).length - 1).natAbs
  simp only [Layout.scientific, String.toList_append, List.append_assoc]
  split
  · next c c' rest hdigits =>
    rw [hdigits] at hds
    exact ⟨[c], '.' :: c' :: rest, _, by simp, by simpa [AllDigits] using hds.cons.1,
      .inr ⟨_, by simp, hds.cons.2, rfl⟩, hexp, by simp⟩
  · exact ⟨Nat.toDigits 10 d.digits, [], _, hne, hds, .inl rfl, hexp, by simp⟩

/-- The text of a finite number behind its sign is the text of a number. -/
theorem numberText_magnitude (hL : FractionText L.whole.toList) {F : Format} (x : Binary F) :
    NumberText (L.magnitude x).toList := by
  rw [Layout.magnitude]
  split
  · exact ⟨['0'], L.whole.toList, [], by simp, by simp [AllDigits], hL, .inl rfl, by simp⟩
  · rw [Layout.decimal]
    split
    · exact numberText_plain L hL _
    · split
      · exact numberText_plain L hL _
      · exact numberText_scientific _

end

/-- The text of a finite number in a document is that of a number, with or without a sign. -/
theorem numberText_documentLayout {x : Double} (hx : x.isFinite = true) :
    ∃ t, NumberText t ∧ ((documentLayout.text x).toList = t ∨
      (documentLayout.text x).toList = '-' :: t) := by
  have hnan : x.isNaN = false := by
    simp only [Binary.isFinite, decide_eq_true_eq] at hx
    simp only [Binary.isNaN, decide_eq_false_iff_not]
    omega
  refine ⟨(documentLayout.magnitude x).toList,
    numberText_magnitude _ (.inr ⟨['0'], by simp, by simp [AllDigits], by simp [documentLayout]⟩)
      x, ?_⟩
  cases hneg : x.negative <;> simp [Layout.text, hnan, hx, hneg]

/-! ## Whole numbers -/

theorem le_ofDigitChars (ds : List Char) (value : Nat) : value ≤ Nat.ofDigitChars 10 ds value := by
  induction ds generalizing value with
  | nil => simp
  | cons c ds ih =>
    rw [Nat.ofDigitChars_cons]
    exact Nat.le_trans (by omega) (ih _)

/-- Digits that denote a number of 64 bits are all taken into the significand. -/
theorem takeDigits_eq_ofDigitChars {ds : List Char} {significand : Nat} (hds : AllDigits ds)
    (h : Nat.ofDigitChars 10 ds significand < unsignedBound) :
    takeDigits significand ds = (Nat.ofDigitChars 10 ds significand, ds.length, []) := by
  induction ds generalizing significand with
  | nil => simp [takeDigits]
  | cons c ds ih =>
    obtain ⟨hc, hds⟩ := hds.cons
    rw [Nat.ofDigitChars_cons, Nat.mul_comm 10 significand] at h ⊢
    have hfits : significand * 10 + digitValue c < unsignedBound :=
      Nat.lt_of_le_of_lt (le_ofDigitChars ds _) h
    simp only [takeDigits, hc, hfits, decide_true, Bool.and_self, if_true]
    rw [show digitValue c = c.toNat - '0'.toNat from rfl, ih hds h]
    rfl

/-- Only zero is written with a leading zero. -/
theorem eq_zero_of_toDigits {n : Nat} {ds : List Char} (h : Nat.toDigits 10 n = '0' :: ds) :
    n = 0 := by
  induction n using Nat.strongRecOn generalizing ds with
  | ind n ih =>
    by_cases hn : n < 10
    · have digit : ∀ m, m < 10 → m.digitChar = '0' → m = 0 := by decide
      rw [Nat.toDigits_of_lt_base hn, List.cons.injEq] at h
      exact digit n hn h.1
    · rw [Nat.toDigits_of_base_le (by decide) (by omega)] at h
      cases hq : Nat.toDigits 10 (n / 10) with
      | nil => exact absurd hq Nat.toDigits_ne_nil
      | cons c ds' =>
        rw [hq, List.cons_append, List.cons.injEq] at h
        rw [h.1] at hq
        have := ih (n / 10) (by omega) hq
        omega

theorem unsignedNumber_natText (negative : Bool) {n : Nat} (hn : n < unsignedBound)
    {rest : List Char} (hr : EndsNumber rest) :
    unsignedNumber negative ((natText n).toList ++ rest) = .ok (wholeNumber negative n, rest) := by
  have hwhole (m : Nat) : afterWhole negative m 0 rest = .ok (wholeNumber negative m, rest) := by
    cases rest with
    | nil => rfl
    | cons c s =>
      obtain ⟨-, hp, he, hE⟩ := hr c s rfl
      simp [afterWhole, hp, he, hE]
  rw [natText, String.toList_ofList]
  cases hdigits : Nat.toDigits 10 n with
  | nil => exact absurd hdigits Nat.toDigits_ne_nil
  | cons c ds =>
    have hds := allDigits_toDigits n
    rw [hdigits] at hds
    obtain ⟨hc, hds⟩ := hds.cons
    by_cases hzero : c = '0'
    · subst hzero
      have hn0 := eq_zero_of_toDigits hdigits
      subst hn0
      rw [Nat.toDigits_zero, List.cons.injEq] at hdigits
      rw [← hdigits.2]
      simp [unsignedNumber, hr.startsWithDigit, hwhole]
    · have hvalue : Nat.ofDigitChars 10 ds (digitValue c) = n := by
        have := Nat.ofDigitChars_ten_toDigits (n := n)
        rw [hdigits, Nat.ofDigitChars_cons] at this
        simpa [digitValue] using this
      have htaken := takeDigits_eq_ofDigitChars hds (hvalue ▸ hn)
      simp only [List.cons_append, unsignedNumber, hzero, if_false, hc, if_true,
        dropDigits_takeDigits _ hds hr.startsWithDigit]
      rw [takeDigits_append _ hds hr.startsWithDigit, htaken, hvalue]
      exact hwhole n

namespace Reader

theorem read_number_unsigned {c : Char} (s : List Char) (h : c ≠ '-') :
    number.read (c :: s) = (unsignedNumber false (c :: s)).toOption := by
  simp [number, h, read, unsigned, look]

theorem read_number_negative (s : List Char) :
    number.read ('-' :: s) = (unsignedNumber true s).toOption := by
  rw [number, read_look, if_pos rfl, read_andThen, read_anyChar]
  rfl

/-- A whole number of 64 bits is read as itself. -/
theorem number_yields_intText {n : Int} (hlow : -signedBound ≤ n) (hhigh : n < signedBound) :
    number.Yields (intText n).toList (some (.int n)) := by
  intro rest hr
  have hbound : signedBound < unsignedBound := by decide
  cases n with
  | ofNat n =>
    have hn : n < unsignedBound := by
      simp only [Int.ofNat_eq_natCast] at hhigh
      omega
    have hread := unsignedNumber_natText false hn hr
    cases hdigits : Nat.toDigits 10 n with
    | nil => exact absurd hdigits Nat.toDigits_ne_nil
    | cons c ds =>
      have hc := (hdigits ▸ allDigits_toDigits n).cons.1
      have hsign : c ≠ '-' := by
        rintro rfl
        exact absurd hc (by decide)
      simp only [intText, natText, String.toList_ofList, hdigits, List.cons_append] at hread ⊢
      rw [read_number_unsigned _ hsign, hread]
      simp [wholeNumber, Except.toOption]
  | negSucc n =>
    -- The least number has no counterpart above zero, so this bound is not strict.
    have hn : n + 1 ≤ signedBound := by omega
    have hread := unsignedNumber_natText true (Nat.lt_of_le_of_lt hn hbound) hr
    simp only [intText, String.toList_append, List.append_assoc]
    rw [show "-".toList = ['-'] from rfl, List.singleton_append, read_number_negative, hread]
    have hwhole : (n + 1 = 0 || signedBound < n + 1) = false := by simp; omega
    simp only [wholeNumber, Bool.not_true, Bool.false_eq_true, if_false, hwhole, Except.toOption]
    rfl

/-- The text of a finite number is taken to its end, if it is in range. -/
theorem number_yields_documentLayout {x : Double} (hx : x.isFinite = true) :
    ∃ outcome, number.Yields (documentLayout.text x).toList outcome := by
  obtain ⟨t, ht, htext⟩ := numberText_documentLayout hx
  rcases htext with htext | htext
  · obtain ⟨c, s, rfl, hc⟩ := ht.cons
    have hsign : c ≠ '-' := by
      rintro rfl
      exact absurd hc (by decide)
    obtain ⟨outcome, h⟩ := unsignedNumber_settles false ht
    refine ⟨outcome, ?_⟩
    intro rest hr
    rw [htext, List.cons_append, read_number_unsigned _ hsign, ← List.cons_append, h rest hr]
  · obtain ⟨outcome, h⟩ := unsignedNumber_settles true ht
    refine ⟨outcome, ?_⟩
    intro rest hr
    rw [htext, List.cons_append, read_number_negative, h rest hr]

end Reader

end SyntaxForest.Document
