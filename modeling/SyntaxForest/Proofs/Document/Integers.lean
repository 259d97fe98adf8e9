import Mathlib.Algebra.Ring.Int.Defs
import SyntaxForest.Proofs.Document.Forms
import SyntaxForest.Proofs.Document.Skipping

/-!
# Integers of any length

An integer in a document may have any number of digits. It is read as a whole payload exactly when
it fits into 64 bits with a sign and is not a zero behind a minus. Every other one becomes a
fractional payload or is out of range, and never a whole one that was rounded or cut off
(`IntegerText.reports`).
-/

namespace SyntaxForest.Document

open Numeric

/-- An integer as a document may write it, and its value: a minus or none, and digits of which only
a single one may be a leading zero. -/
def IntegerText (t : List Char) (n : Int) : Prop :=
  ∃ ds, WholeText ds ∧ (t = ds ∧ n = Nat.ofDigitChars 10 ds 0 ∨
    t = '-' :: ds ∧ n = -(Nat.ofDigitChars 10 ds 0 : Int))

/-- The integers that a whole payload holds are those of 64 bits. A zero behind a minus is not one
of them, whatever its value. -/
def IsPayload (t : List Char) (n : Int) : Prop := t ≠ ['-', '0'] ∧ -2 ^ 63 ≤ n ∧ n < 2 ^ 63

/-! ## Digits and their value -/

theorem digitChar_digitValue {c : Char} (h : c.isDigit = true) :
    digitValue c < 10 ∧ (digitValue c).digitChar = c := by
  have hrange : 48 ≤ c.toNat ∧ c.toNat ≤ 57 := by
    simp only [Char.isDigit, Bool.and_eq_true, decide_eq_true_eq] at h
    exact h
  have hlt : digitValue c < 10 := by
    change c.toNat - 48 < 10
    omega
  refine ⟨hlt, Char.toNat_inj.mp ?_⟩
  rw [Nat.toNat_digitChar_of_lt_ten hlt]
  change 48 + (c.toNat - 48) = c.toNat
  omega

/-- Digits behind a number that is not zero are the last digits of the value. -/
theorem toDigits_ofDigitChars {ds : List Char} (hds : AllDigits ds) {value : Nat}
    (hvalue : 0 < value) :
    Nat.toDigits 10 (Nat.ofDigitChars 10 ds value) = Nat.toDigits 10 value ++ ds := by
  induction ds generalizing value with
  | nil => rw [Nat.ofDigitChars_nil, List.append_nil]
  | cons c ds ih =>
    obtain ⟨hc, hds⟩ := hds.cons
    obtain ⟨hlt, hchar⟩ := digitChar_digitValue hc
    rw [Nat.ofDigitChars_cons, show c.toNat - '0'.toNat = digitValue c from rfl,
      ih hds (by omega), ← Nat.toDigits_append_toDigits (by decide) hvalue hlt,
      Nat.toDigits_of_lt_base hlt, hchar, List.append_assoc, List.singleton_append]

/-- The integer part of a number is the text of its value. -/
theorem WholeText.eq_natText {ds : List Char} (h : WholeText ds) :
    ds = (natText (Nat.ofDigitChars 10 ds 0)).toList := by
  rw [natText_toList]
  rcases h with rfl | ⟨d, ds, hd, hzero, hds, rfl⟩
  · decide
  · obtain ⟨hlt, hchar⟩ := digitChar_digitValue hd
    have hpos : 0 < digitValue d := by
      refine Nat.pos_of_ne_zero fun h => hzero ?_
      rw [← hchar, h]
      rfl
    rw [Nat.ofDigitChars_cons, Nat.mul_zero, Nat.zero_add,
      show d.toNat - '0'.toNat = digitValue d from rfl, toDigits_ofDigitChars hds hpos,
      Nat.toDigits_of_lt_base hlt, hchar, List.singleton_append]

/-- An integer is written in one way, but for a zero behind a minus. -/
theorem IntegerText.eq_intText {t : List Char} {n : Int} (h : IntegerText t n) :
    t = (intText n).toList ∨ t = ['-', '0'] ∧ n = 0 := by
  obtain ⟨ds, hds, ⟨rfl, rfl⟩ | ⟨rfl, rfl⟩⟩ := h
  · exact .inl hds.eq_natText
  · have htext := hds.eq_natText
    cases hvalue : Nat.ofDigitChars 10 ds 0 with
    | zero =>
      rw [htext, hvalue]
      exact .inr ⟨rfl, rfl⟩
    | succ m =>
      left
      rw [htext, hvalue]
      exact (intText_negSucc m).symm

theorem IntegerText.cons {t : List Char} {n : Int} (h : IntegerText t n) :
    ∃ c s, t = c :: s ∧ (c = '-' ∨ c.isDigit = true) := by
  obtain ⟨ds, hds, ⟨rfl, -⟩ | ⟨rfl, -⟩⟩ := h
  · rcases hds with rfl | ⟨d, ds, hd, -, -, rfl⟩
    · exact ⟨'0', [], rfl, .inr rfl⟩
    · exact ⟨d, ds, rfl, .inr hd⟩
  · exact ⟨'-', ds, rfl, .inl rfl⟩

/-! ## Digits that are dropped -/

/-- The significand stays below its bound, and what is left of the digits completes the value. -/
theorem takeDigits_value {significand : Nat} (h : significand < unsignedBound) (ds : List Char) :
    (takeDigits significand ds).1 < unsignedBound ∧
      Nat.ofDigitChars 10 (takeDigits significand ds).2.2 (takeDigits significand ds).1 =
        Nat.ofDigitChars 10 ds significand := by
  induction ds generalizing significand with
  | nil => exact ⟨h, rfl⟩
  | cons c ds ih =>
    rw [takeDigits]
    split
    · next hc =>
      simp only [Bool.and_eq_true, decide_eq_true_eq] at hc
      rw [Nat.ofDigitChars_cons, Nat.mul_comm 10]
      exact ih hc.2
    · exact ⟨h, rfl⟩

/-- A number without an exponent is as large as its significand and power of ten, or out of
range. -/
theorem scaled_endsNumber (negative : Bool) (significand : Nat) (tens : Int) {rest : List Char}
    (hr : EndsNumber rest) :
    scaled negative significand tens rest =
      (match Double.ofScientific? negative significand tens with
      | some x => .ok (.float x)
      | none => .error .numberOutOfRange : Except Fault Numeral).map (·, rest) := by
  rw [scaled, hr.exponentPart]
  simp only [Int.add_zero]
  cases Double.ofScientific? negative significand tens <;> rfl

/-- Digits that denote no number of 64 bits are not all taken into the significand. -/
theorem unsignedNumber_large (negative : Bool) {ds : List Char} (hds : WholeText ds)
    (h : unsignedBound ≤ Nat.ofDigitChars 10 ds 0) :
    ∃ significand tens, ∀ rest, EndsNumber rest →
      unsignedNumber negative (ds ++ rest) = scaled negative significand tens rest := by
  rcases hds with rfl | ⟨d, ds, hd, hzero, hds, rfl⟩
  · exact absurd h (by decide)
  · rw [Nat.ofDigitChars_cons, Nat.mul_zero, Nat.zero_add,
      show d.toNat - '0'.toNat = digitValue d from rfl] at h
    let taken := takeDigits (digitValue d) ds
    have hdigit := (digitChar_digitValue hd).1
    have hvalue := takeDigits_value (Nat.lt_trans hdigit (by decide : 10 < unsignedBound)) ds
    have hleft : taken.2.2.length ≠ 0 := by
      intro hnil
      rw [List.length_eq_zero_iff.mp hnil, Nat.ofDigitChars_nil] at hvalue
      omega
    refine ⟨taken.1, taken.2.2.length, fun rest hr => ?_⟩
    have hafter : afterWhole negative taken.1 taken.2.2.length rest =
        scaled negative taken.1 taken.2.2.length rest := by
      cases rest with
      | nil => simp [afterWhole, hleft]
      | cons c s =>
        obtain ⟨-, hp, -, -⟩ := hr c s rfl
        simp [afterWhole, hp, hleft]
    rw [← hafter, List.cons_append, unsignedNumber, if_neg hzero, if_pos hd]
    simp only [dropDigits_takeDigits _ hds hr.startsWithDigit]
    rw [takeDigits_append _ hds hr.startsWithDigit]

/-! ## What is reported -/

namespace Reader

variable {α : Type}

/-- On a text in front of whatever ends a number, the reader gives a value and leaves what follows,
or finds a fault. -/
def Reports (p : Reader α) (t : List Char) (outcome : Except Fault α) : Prop :=
  ∀ rest, EndsNumber rest → p.run (t ++ rest) = outcome.map (·, rest)

theorem Reports.yields {p : Reader α} {t : List Char} {outcome : Except Fault α}
    (h : p.Reports t outcome) : p.Yields t outcome.toOption := by
  intro rest hr
  rw [read, h rest hr]
  cases outcome <;> rfl

theorem run_number_unsigned {c : Char} (s : List Char) (h : c ≠ '-') :
    number.run (c :: s) = unsignedNumber false (c :: s) := by
  simp [number, h, unsigned, look]

theorem run_number_negative (s : List Char) :
    number.run ('-' :: s) = unsignedNumber true s := rfl

theorem run_anyValue_number (inner : Option Decoder) {c : Char} (s : List Char)
    (h : c = '-' ∨ c.isDigit = true) :
    (anyValue inner).run (c :: s) =
      (number.run (c :: s)).map fun (n, rest) => (some n.toScalar, rest) := by
  have hblank : isBlank c = false := by
    rcases h with rfl | h
    · rfl
    · exact isBlank_of_isDigit h
  have hletters : c ≠ 'n' ∧ c ≠ 't' ∧ c ≠ 'f' := by
    refine ⟨?_, ?_, ?_⟩ <;> (rintro rfl; revert h; decide)
  have hchoose : (anyValue inner).run (c :: s) =
      (number.map fun n => some n.toScalar).run (c :: s) := by
    simp only [anyValue, peek, afterBlanks, look, skipBlanks_cons s hblank]
    rw [if_neg hletters.1, if_neg hletters.2.1, if_neg hletters.2.2, if_pos (by simpa using h)]
  rw [hchoose, map, follow]
  cases hrun : number.run (c :: s) <;> simp [hrun, Except.map]

/-- A number stands for a payload. -/
theorem Reports.scalar {t : List Char} {outcome : Except Fault Numeral}
    (hhead : ∃ c s, t = c :: s ∧ (c = '-' ∨ c.isDigit = true)) (h : number.Reports t outcome)
    (inner : Option Decoder) :
    (Form.reader inner (.scalar id)).Reports t (outcome.map Numeral.toScalar) := by
  obtain ⟨c, s, rfl, hc⟩ := hhead
  intro rest hr
  have hrun := run_anyValue_number inner (s ++ rest) hc
  rw [← List.cons_append, h rest hr] at hrun
  rw [Form.reader, follow]
  simp only [hrun]
  cases outcome <;> rfl

end Reader

/-- What becomes of an integer as a payload: it is kept if a whole payload holds it, and otherwise
it is made a fraction or is out of range. -/
def Settled (t : List Char) (n : Int) (outcome : Except Fault Scalar) : Prop :=
  IsPayload t n ∧ outcome = .ok (.int (Int64.ofInt n)) ∨
    ¬ IsPayload t n ∧ ((∃ x, outcome = .ok (.float x)) ∨ outcome = .error .numberOutOfRange)

theorem settled_int {t : List Char} {n : Int} (ht : t ≠ ['-', '0']) (hlow : -2 ^ 63 ≤ n) :
    Settled t n (.ok (Numeral.int n).toScalar) := by
  rw [Numeral.toScalar]
  split
  · next hhigh => exact .inl ⟨⟨ht, hlow, hhigh⟩, rfl⟩
  · next hhigh => exact .inr ⟨fun h => hhigh h.2.2, .inl ⟨_, rfl⟩⟩

theorem settled_float {t : List Char} {n : Int} {x : Double} (h : ¬ IsPayload t n) :
    Settled t n (.ok (Numeral.float x).toScalar) :=
  .inr ⟨h, .inl ⟨x, rfl⟩⟩

/-- Digits behind a sign or none are read as the integer they are, or not as an integer at all. -/
theorem unsignedNumber_settled (negative : Bool) {ds t : List Char} {n : Int} (hds : WholeText ds)
    (ht : t = ['-', '0'] ↔ negative = true ∧ Nat.ofDigitChars 10 ds 0 = 0)
    (hn : n = if negative then -(Nat.ofDigitChars 10 ds 0 : Int) else Nat.ofDigitChars 10 ds 0) :
    ∃ outcome : Except Fault Numeral,
      (∀ rest, EndsNumber rest → unsignedNumber negative (ds ++ rest) = outcome.map (·, rest)) ∧
      Settled t n (outcome.map Numeral.toScalar) := by
  have hbound : signedBound = 2 ^ 63 ∧ unsignedBound = 2 ^ 64 := by decide
  rcases Nat.lt_or_ge (Nat.ofDigitChars 10 ds 0) unsignedBound with hsmall | hlarge
  · refine ⟨.ok (wholeNumber negative (Nat.ofDigitChars 10 ds 0)), fun rest hr => ?_, ?_⟩
    · have hread := unsignedNumber_natText negative hsmall hr
      rwa [← hds.eq_natText] at hread
    · generalize Nat.ofDigitChars 10 ds 0 = m at *
      rw [wholeNumber]
      cases negative with
      | false =>
        subst hn
        exact settled_int (by simp [ht]) (by simp)
      | true =>
        obtain rfl : n = -(m : Int) := hn
        rw [if_neg (by decide)]
        split
        · next hfloat =>
          refine settled_float fun hpayload => ?_
          have hzero : m ≠ 0 := fun h => hpayload.1 (ht.mpr ⟨rfl, h⟩)
          have hlow := hpayload.2.1
          simp only [Bool.or_eq_true, decide_eq_true_eq] at hfloat
          omega
        · next hint =>
          simp only [Bool.or_eq_true, decide_eq_true_eq, not_or] at hint
          exact settled_int (by simp [ht, hint.1]) (by omega)
  · obtain ⟨significand, tens, hscaled⟩ := unsignedNumber_large negative hds hlarge
    refine ⟨_, fun rest hr => (hscaled rest hr).trans (scaled_endsNumber _ _ _ hr), ?_⟩
    have hpayload : ¬ IsPayload t n := by
      rintro ⟨-, hlow, hhigh⟩
      cases negative <;> simp at hn <;> omega
    cases Double.ofScientific? negative significand tens with
    | some x => exact settled_float hpayload
    | none => exact .inr ⟨hpayload, .inr rfl⟩

theorem IntegerText.number_reports {t : List Char} {n : Int} (h : IntegerText t n) :
    ∃ outcome, Reader.number.Reports t outcome ∧ Settled t n (outcome.map Numeral.toScalar) := by
  obtain ⟨ds, hds, ⟨rfl, hn⟩ | ⟨rfl, hn⟩⟩ := h
  · have hhead : ∃ c s, t = c :: s ∧ c ≠ '-' := by
      rcases hds with rfl | ⟨d, ds, hd, -, -, rfl⟩
      · exact ⟨'0', [], rfl, by decide⟩
      · exact ⟨d, ds, rfl, by rintro rfl; cases hd⟩
    obtain ⟨c, s, rfl, hc⟩ := hhead
    obtain ⟨outcome, hrun, hsettled⟩ :=
      unsignedNumber_settled false (t := c :: s) hds (by simp [hc]) hn
    exact ⟨outcome, fun rest hr => (Reader.run_number_unsigned _ hc).trans (hrun rest hr), hsettled⟩
  · have hzero : '-' :: ds = ['-', '0'] ↔ true = true ∧ Nat.ofDigitChars 10 ds 0 = 0 := by
      constructor
      · rintro ⟨⟩
        exact ⟨rfl, rfl⟩
      · rintro ⟨-, hvalue⟩
        rw [hds.eq_natText, hvalue]
        rfl
    obtain ⟨outcome, hrun, hsettled⟩ := unsignedNumber_settled true hds hzero hn
    exact ⟨outcome, fun rest hr => (Reader.run_number_negative _).trans (hrun rest hr), hsettled⟩

/-- The payload that is read from an integer of any length. -/
theorem IntegerText.reports {t : List Char} {n : Int} (h : IntegerText t n) :
    ∃ outcome, (∀ bound, (decoder bound .scalar).Reports t outcome) ∧ Settled t n outcome := by
  obtain ⟨outcome, hreports, hsettled⟩ := h.number_reports
  refine ⟨outcome.map Numeral.toScalar, fun bound => ?_, hsettled⟩
  rw [decoder_eq]
  exact hreports.scalar h.cons _

end SyntaxForest.Document
