import SyntaxForest.Numeric.Layout

/-!
# Digits

The decimal text of a natural number is a run of digits that is never empty, and the text of an
integer is such a run behind a minus that may be missing. Both texts determine the number.
-/

namespace SyntaxForest.Numeric

/-- All characters are decimal digits. -/
def AllDigits (ds : List Char) : Prop := ∀ c ∈ ds, c.isDigit = true

theorem AllDigits.cons {c : Char} {ds : List Char} (h : AllDigits (c :: ds)) :
    c.isDigit = true ∧ AllDigits ds :=
  ⟨h c (by simp), fun d hd => h d (by simp [hd])⟩

theorem AllDigits.append {ds es : List Char} (hd : AllDigits ds) (he : AllDigits es) :
    AllDigits (ds ++ es) := by
  intro c hc
  rcases List.mem_append.mp hc with hc | hc
  · exact hd c hc
  · exact he c hc

theorem AllDigits.sublist {ds es : List Char} (h : AllDigits ds) (hsub : es.Sublist ds) :
    AllDigits es := fun c hc => h c (hsub.subset hc)

theorem allDigits_toDigits (n : Nat) : AllDigits (Nat.toDigits 10 n) :=
  fun _ hc => Nat.isDigit_of_mem_toDigits (by decide) (by decide) hc

theorem natText_toList (n : Nat) : (natText n).toList = Nat.toDigits 10 n := by
  simp [natText]

theorem allDigits_natText (n : Nat) : AllDigits (natText n).toList := by
  rw [natText_toList]
  exact allDigits_toDigits n

theorem natText_cons (n : Nat) : ∃ d ds, (natText n).toList = d :: ds ∧ d.isDigit = true := by
  have hall := allDigits_natText n
  rw [natText_toList] at hall ⊢
  cases hds : Nat.toDigits 10 n with
  | nil => exact absurd hds Nat.toDigits_ne_nil
  | cons d ds => exact ⟨d, ds, rfl, (hds ▸ hall).cons.1⟩

theorem natText_inj {n m : Nat} (h : (natText n).toList = (natText m).toList) : n = m := by
  rw [natText_toList, natText_toList] at h
  rw [← Nat.ofDigitChars_ten_toDigits (n := n), h, Nat.ofDigitChars_ten_toDigits]

theorem intText_negSucc (n : Nat) :
    (intText (.negSucc n)).toList = '-' :: (natText (n + 1)).toList := by
  simp [intText]

theorem intText_cons (v : Int) :
    ∃ c s, (intText v).toList = c :: s ∧ (c = '-' ∨ c.isDigit = true) := by
  cases v with
  | ofNat n =>
    obtain ⟨d, ds, hds, hd⟩ := natText_cons n
    exact ⟨d, ds, hds, .inr hd⟩
  | negSucc n => exact ⟨'-', _, intText_negSucc n, .inl rfl⟩

theorem intText_inj {v w : Int} (h : (intText v).toList = (intText w).toList) : v = w := by
  have clash {n m : Nat} : (natText n).toList ≠ '-' :: (natText m).toList := by
    obtain ⟨d, ds, hds, hd⟩ := natText_cons n
    rw [hds]
    rintro ⟨⟩
    cases hd
  cases v with
  | ofNat n =>
    cases w with
    | ofNat m => rw [natText_inj h]
    | negSucc m => exact absurd (h.trans (intText_negSucc m)) clash
  | negSucc n =>
    rw [intText_negSucc] at h
    cases w with
    | ofNat m => exact absurd h.symm clash
    | negSucc m =>
      rw [intText_negSucc] at h
      have hnm : n + 1 = m + 1 := natText_inj (List.cons.inj h).2
      rw [Nat.add_right_cancel hnm]

end SyntaxForest.Numeric
