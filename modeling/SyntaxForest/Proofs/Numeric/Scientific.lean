import SyntaxForest.Numeric.Scientific
import SyntaxForest.Proofs.Numeric.Shortest

/-!
# The error of numbers from a power of ten

A significand of 64 bits times a power of ten is computed in up to five roundings: of the
significand, of the power of ten, of a first quotient, of the power of ten behind that, and of the
result. So what is computed from a decimal between the neighbours of a number is a few magnitudes
away from the number at most (`ofScientific?_near`).
-/

namespace SyntaxForest.Numeric

open Format

theorem Binary.value_mul {F : Format} (x y : Binary F) :
    ((F.units x.magnitude * F.units y.magnitude : Nat) : ℚ) / (F.one * F.one) =
      F.value x.magnitude * F.value y.magnitude := by
  rw [value, value, div_mul_div_comm, Nat.cast_mul]

theorem Binary.value_div {F : Format} (x y : Binary F) :
    ((F.units x.magnitude * F.one : Nat) : ℚ) / (F.units y.magnitude * F.one) =
      F.value x.magnitude / F.value y.magnitude := by
  rw [value, value, div_div_div_cancel_right₀ F.one_pos_rat.ne', Nat.cast_mul,
    mul_div_mul_right _ _ F.one_pos_rat.ne']

namespace Double

/-! ## Whole numbers and powers of ten -/

theorem ofNat_magnitude_lt {n : Nat} (hn : n ≤ Nat.pow 10 mostTens) :
    (Binary.ofNat Format.double n).magnitude < Format.double.infinity := by
  have hmost : (powerOfTen mostTens).magnitude < Format.double.infinity := by decide +kernel
  exact Nat.lt_of_le_of_lt (Format.double.round_le Nat.one_pos (Nat.mul_le_mul_right _ hn)) hmost

/-- A whole number that is not too large is rounded once. -/
theorem near_ofNat {n : Nat} (hpos : 0 < n) (hn : n ≤ Nat.pow 10 mostTens) :
    Format.double.Near 1 n (Format.double.value (Binary.ofNat Format.double n).magnitude) ∧
      Format.double.Near 1 (Format.double.value (Binary.ofNat Format.double n).magnitude) n := by
  have hfull : Format.double.fractions * 1 ≤ n * Format.double.one := by
    have hone : Format.double.fractions * 1 ≤ Format.double.one := by decide +kernel
    exact Nat.le_trans hone (Nat.le_mul_of_pos_left _ hpos)
  have hvalue : ((n * Format.double.one : Nat) : ℚ) / ((1 : Nat) * Format.double.one) = n := by
    rw [Nat.cast_mul, Nat.cast_one, one_mul, mul_div_cancel_right₀ _ Format.double.one_pos_rat.ne']
  have hnear := near_round Nat.one_pos hfull (ofNat_magnitude_lt hn)
  rw [hvalue] at hnear
  exact hnear

theorem value_ofNat_pos {n : Nat} (hpos : 0 < n) (hn : n ≤ Nat.pow 10 mostTens) :
    0 < Format.double.value (Binary.ofNat Format.double n).magnitude :=
  (near_ofNat hpos hn).1.pos (by exact_mod_cast hpos)

theorem units_ofNat_pos {n : Nat} (hpos : 0 < n) (hn : n ≤ Nat.pow 10 mostTens) :
    0 < Format.double.units (Binary.ofNat Format.double n).magnitude := by
  have h := value_ofNat_pos hpos hn
  rw [value, div_pos_iff_of_pos_right Format.double.one_pos_rat] at h
  exact_mod_cast h

theorem tens_le {j k : Nat} (h : j ≤ k) : Nat.pow 10 j ≤ Nat.pow 10 k :=
  Nat.pow_le_pow_right (by decide) h

theorem tens_pos (k : Nat) : 0 < Nat.pow 10 k := Nat.pow_pos (by decide)

theorem div_tens_tens (r : ℚ) (j k : Nat) :
    r / (Nat.pow 10 j : Nat) / (Nat.pow 10 k : Nat) = r / 10 ^ (j + k) := by
  rw [div_div, pow_add]
  norm_cast

theorem significand_le {n : Nat} (hn : n < 2 ^ 64) : n ≤ Nat.pow 10 mostTens :=
  Nat.le_trans (Nat.le_of_lt hn) (by decide +kernel)

/-! ## One product or quotient -/

section

variable {n k m : Nat} (hpos : 0 < n) (hn : n < 2 ^ 64) (hm : m ≤ Format.double.infinity)

include hpos hn hm

/-- A product of the significand and a power of ten is off by three magnitudes at most. -/
theorem mul_powerOfTen_within (hk : k ≤ mostTens)
    (hlow : Format.double.value (m - 1) ≤ n * 10 ^ k)
    (hhigh : n * 10 ^ k ≤ Format.double.value (m + 1)) :
    m ≤ ((Binary.ofNat Format.double n).mul (powerOfTen k)).magnitude + 3 ∧
      ((Binary.ofNat Format.double n).mul (powerOfTen k)).magnitude ≤ m + 3 := by
  have hstart := (near_ofNat hpos (significand_le hn)).1
  have htens := (near_ofNat (tens_pos k) (tens_le hk)).1
  have hnear := hstart.mul htens (by exact_mod_cast hpos) (by exact_mod_cast tens_pos k)
  rw [← Binary.value_mul] at hnear
  refine round_within Format.double.one_pos hm ?_ ?_ hnear
  · exact_mod_cast hlow
  · exact_mod_cast hhigh

/-- So is a quotient. -/
theorem div_powerOfTen_within (hk : k ≤ mostTens)
    (hlow : Format.double.value (m - 1) ≤ n / 10 ^ k)
    (hhigh : n / 10 ^ k ≤ Format.double.value (m + 1)) :
    m ≤ ((Binary.ofNat Format.double n).div (powerOfTen k)).magnitude + 3 ∧
      ((Binary.ofNat Format.double n).div (powerOfTen k)).magnitude ≤ m + 3 := by
  have hstart := (near_ofNat hpos (significand_le hn)).1
  have htens := (near_ofNat (tens_pos k) (tens_le hk)).2
  have hnear := hstart.div htens (by exact_mod_cast hpos) (value_ofNat_pos (tens_pos k) (tens_le hk))
  rw [← powerOfTen, ← Binary.value_div] at hnear
  refine round_within (units_ofNat_pos (tens_pos k) (tens_le hk)) hm ?_ ?_ hnear
  · exact_mod_cast hlow
  · exact_mod_cast hhigh

end

/-! ## Two quotients -/

/-- The quotient by `10 ^ 308` still has a full significand if the dividend is not one or two. -/
theorem near_first_quotient {n : Nat} (hthree : 3 ≤ n) (hn : n < 2 ^ 64) :
    Format.double.Near 1
      (Format.double.value (Binary.ofNat Format.double n).magnitude /
        Format.double.value (powerOfTen mostTens).magnitude)
      (Format.double.value
        ((Binary.ofNat Format.double n).div (powerOfTen mostTens)).magnitude) := by
  have hstart {a b : Nat} (h : a ≤ b) : Format.double.units (Binary.ofNat Format.double a).magnitude *
      Format.double.one ≤
      Format.double.units (Binary.ofNat Format.double b).magnitude * Format.double.one :=
    Nat.mul_le_mul_right _ (Format.double.units_le
      (Format.double.round_le Nat.one_pos (Nat.mul_le_mul_right _ h)))
  have hden : 0 < Format.double.units (powerOfTen mostTens).magnitude :=
    units_ofNat_pos (tens_pos mostTens) (tens_le (Nat.le_refl _))
  have hfull : Format.double.fractions * Format.double.units (powerOfTen mostTens).magnitude ≤
      Format.double.units (Binary.ofNat Format.double n).magnitude * Format.double.one :=
    Nat.le_trans (by decide +kernel) (hstart hthree)
  have hfinite : Format.double.round
      (Format.double.units (Binary.ofNat Format.double n).magnitude * Format.double.one)
      (Format.double.units (powerOfTen mostTens).magnitude) < Format.double.infinity :=
    Nat.lt_of_le_of_lt (Format.double.round_le hden (hstart (Nat.le_of_lt hn))) (by decide +kernel)
  have hnear := (near_round hden hfull hfinite).1
  rwa [Binary.value_div] at hnear

/-- Two quotients one after the other are off by five magnitudes at most. -/
theorem div_div_powerOfTen_within {n k m : Nat} (hthree : 3 ≤ n) (hn : n < 2 ^ 64)
    (hm : m ≤ Format.double.infinity) (hk : k ≤ mostTens)
    (hlow : Format.double.value (m - 1) ≤ n / 10 ^ (mostTens + k))
    (hhigh : n / 10 ^ (mostTens + k) ≤ Format.double.value (m + 1)) :
    m ≤ (((Binary.ofNat Format.double n).div (powerOfTen mostTens)).div (powerOfTen k)).magnitude
        + 5 ∧
      (((Binary.ofNat Format.double n).div (powerOfTen mostTens)).div (powerOfTen k)).magnitude
        ≤ m + 5 := by
  have hpos : 0 < n := by omega
  have hn' : (0 : ℚ) < n := by exact_mod_cast hpos
  have hstart := (near_ofNat hpos (significand_le hn)).1
  have hmost := (near_ofNat (tens_pos mostTens) (tens_le (Nat.le_refl _))).2
  have htens := (near_ofNat (tens_pos k) (tens_le hk)).2
  have hfirst := (hstart.div hmost hn'
    (value_ofNat_pos (tens_pos mostTens) (tens_le (Nat.le_refl _)))).trans
    (near_first_quotient hthree hn)
  have hmost_pos : (0 : ℚ) < ((Nat.pow 10 mostTens : Nat) : ℚ) := by exact_mod_cast tens_pos mostTens
  have hnear := hfirst.div htens (by positivity) (value_ofNat_pos (tens_pos k) (tens_le hk))
  rw [← powerOfTen, ← Binary.value_div] at hnear
  rw [div_tens_tens] at hnear
  exact round_within (units_ofNat_pos (tens_pos k) (tens_le hk)) hm hlow hhigh hnear

/-- From one and two the first quotient has lost a bit, but far less than what the second one
loses. -/
theorem div_div_small : ∀ n ∈ [1, 2], ∀ k < 33,
    let w := (((Binary.ofNat Format.double n).div (powerOfTen mostTens)).div
      (powerOfTen k)).magnitude
    Format.double.units (w - 4) * Nat.pow 10 (mostTens + k) ≤ n * Format.double.one ∧
      n * Format.double.one ≤ Format.double.units (w + 4) * Nat.pow 10 (mostTens + k) := by
  decide +kernel

theorem div_div_small_within {n k m : Nat} (hn : n ∈ [1, 2]) (hk : k < 33)
    (hlow : Format.double.value (m - 1) ≤ n / 10 ^ (mostTens + k))
    (hhigh : n / 10 ^ (mostTens + k) ≤ Format.double.value (m + 1)) :
    m ≤ (((Binary.ofNat Format.double n).div (powerOfTen mostTens)).div (powerOfTen k)).magnitude
        + 5 ∧
      (((Binary.ofNat Format.double n).div (powerOfTen mostTens)).div (powerOfTen k)).magnitude
        ≤ m + 5 := by
  obtain ⟨hbelow, habove⟩ := div_div_small n hn k hk
  generalize (((Binary.ofNat Format.double n).div (powerOfTen mostTens)).div
    (powerOfTen k)).magnitude = w at hbelow habove ⊢
  generalize mostTens + k = t at hbelow habove hlow hhigh
  have hone := Format.double.one_pos_rat
  have htens : (0 : ℚ) < 10 ^ t := by positivity
  have hbelow' : Format.double.value (w - 4) ≤ n / 10 ^ t := by
    rw [value, div_le_div_iff₀ hone htens]
    exact_mod_cast hbelow
  have habove' : (n : ℚ) / 10 ^ t ≤ Format.double.value (w + 4) := by
    rw [value, div_le_div_iff₀ htens hone]
    exact_mod_cast habove
  have h1 := Format.double.value_le_iff.mp (hlow.trans habove')
  have h2 := Format.double.value_le_iff.mp (hbelow'.trans hhigh)
  omega

/-! ## The number for a significand and a power of ten -/

theorem divideTens_of_le {k : Nat} (hk : 0 < k) (hk' : k ≤ mostTens) (x : Double) :
    divideTens x k = x.div (powerOfTen k) := by
  have hsteps : (k - 1) / mostTens = 0 := Nat.div_eq_of_lt (by omega)
  simp [divideTens, hsteps, divideSteps]

theorem divideTens_add {k : Nat} (hk : 0 < k) (hk' : k ≤ mostTens) {x : Double}
    (hx : x.isZero = false) :
    divideTens x (mostTens + k) = (x.div (powerOfTen mostTens)).div (powerOfTen k) := by
  have hsteps : (mostTens + k - 1) / mostTens = 1 :=
    Nat.div_eq_of_lt_le (by omega) (by omega)
  simp [divideTens, hsteps, divideSteps, hx]

theorem divideSteps_negative {x : Double} (hx : x.negative = false) (steps : Nat) :
    (divideSteps steps x).negative = false := by
  induction steps generalizing x with
  | zero => exact hx
  | succ steps ih =>
    rw [divideSteps]
    split
    · exact hx
    · exact ih (by rw [Binary.div, hx]; rfl)

theorem divideTens_negative {x : Double} (hx : x.negative = false) (k : Nat) :
    (divideTens x k).negative = false := by
  rw [divideTens, Binary.div, divideSteps_negative hx]
  rfl

theorem isZero_ofNat {n : Nat} (hpos : 0 < n) (hn : n ≤ Nat.pow 10 mostTens) :
    (Binary.ofNat Format.double n).isZero = false := by
  have h := value_ofNat_pos hpos hn
  rw [Binary.isZero, beq_eq_false_iff_ne]
  intro hzero
  rw [hzero, value_zero] at h
  exact lt_irrefl _ h

theorem divideTens_within {n k m : Nat} (hpos : 0 < n) (hn : n < 2 ^ 64)
    (hm : m ≤ Format.double.infinity) (hk : 0 < k) (hk' : k ≤ 340)
    (hlow : Format.double.value (m - 1) ≤ n / 10 ^ k)
    (hhigh : n / 10 ^ k ≤ Format.double.value (m + 1)) :
    m ≤ (divideTens (Binary.ofNat Format.double n) k).magnitude + 5 ∧
      (divideTens (Binary.ofNat Format.double n) k).magnitude ≤ m + 5 := by
  rcases Nat.lt_or_ge mostTens k with hlarge | hsmall
  · obtain ⟨j, rfl⟩ : ∃ j, k = mostTens + j := ⟨k - mostTens, by omega⟩
    have hj : j < 33 := by
      have hmost : mostTens = 308 := rfl
      omega
    have hj' : j ≤ mostTens := Nat.le_trans (Nat.le_of_lt hj) (by decide)
    rw [divideTens_add (by omega) hj' (isZero_ofNat hpos (significand_le hn))]
    rcases Nat.lt_or_ge n 3 with htwo | hthree
    · have hmem : n ∈ [1, 2] := by simp; omega
      exact div_div_small_within hmem hj hlow hhigh
    · exact div_div_powerOfTen_within hthree hn hm hj' hlow hhigh
  · rw [divideTens_of_le hk hsmall]
    obtain ⟨h1, h2⟩ := div_powerOfTen_within hpos hn hm hsmall hlow hhigh
    omega

theorem value_of_units {a n : Nat} (h : Format.double.units a = n * Format.double.one) :
    Format.double.value a = n := by
  rw [value, h, Nat.cast_mul, mul_div_cancel_right₀ _ Format.double.one_pos_rat.ne']

/-- A number with a neighbour of 64 bits is far from infinity. -/
theorem add_lt_infinity {m n : Nat} (hn : n < 2 ^ 64) (h : Format.double.value (m - 1) ≤ n) :
    m + 5 < Format.double.infinity := by
  have hvalue : Format.double.value (Binary.ofNat Format.double (2 ^ 64)).magnitude =
      (2 ^ 64 : Nat) := value_of_units (by decide +kernel)
  have hle : Format.double.value (m - 1) ≤ ((2 ^ 64 : Nat) : ℚ) :=
    h.trans (by exact_mod_cast Nat.le_of_lt hn)
  rw [← hvalue, value_le_iff] at hle
  have hlt : (Binary.ofNat Format.double (2 ^ 64)).magnitude + 6 < Format.double.infinity := by
    decide +kernel
  omega

/-- A significand of 64 bits and a power of ten between the neighbours of a finite number give a
finite number of the given sign a few magnitudes away from it, unless a product is infinite. -/
theorem ofScientific?_near (negative : Bool) {n m : Nat} {e : Int} (hpos : 0 < n) (hn : n < 2 ^ 64)
    (hm : m ≤ Format.double.infinity) (hleast : -340 ≤ e) (hmost : e ≤ 308)
    (hfinite : 0 ≤ e → m + 3 < Format.double.infinity)
    (hlow : Format.double.value (m - 1) ≤ n * 10 ^ e)
    (hhigh : n * 10 ^ e ≤ Format.double.value (m + 1)) :
    ∃ x, ofScientific? negative n e = some x ∧ x.negative = negative ∧ x.isFinite = true ∧
      m ≤ x.magnitude + 5 ∧ x.magnitude ≤ m + 5 := by
  simp only [Binary.isFinite_iff]
  have hsign (x : Double) (hx : x.negative = false) :
      (if negative then x.neg else x).negative = negative ∧
        (if negative then x.neg else x).magnitude = x.magnitude := by
    cases negative <;> simp [Binary.neg, hx]
  cases e with
  | ofNat k =>
    have hk : k ≤ mostTens := by
      have : mostTens = 308 := rfl
      simp only [Int.ofNat_eq_natCast] at hmost
      omega
    rw [Int.ofNat_eq_natCast, zpow_natCast] at hlow hhigh
    obtain ⟨h1, h2⟩ := mul_powerOfTen_within hpos hn hm hk hlow hhigh
    obtain ⟨hnegative, hmagnitude⟩ :=
      hsign ((Binary.ofNat Format.double n).mul (powerOfTen k)) rfl
    have hx := Nat.lt_of_le_of_lt h2 (hfinite (Int.natCast_nonneg k))
    refine ⟨_, ?_, hnegative, ?_⟩
    · simp [ofScientific?, multiplyTens?, hk, Binary.isFinite_iff.mpr hx]
    · rw [hmagnitude]
      exact ⟨hx, by omega, by omega⟩
  | negSucc k =>
    have hvalue : (n : ℚ) * 10 ^ (Int.negSucc k) = n / 10 ^ (k + 1) := by
      rw [zpow_negSucc, div_eq_mul_inv]
    rw [hvalue] at hlow hhigh
    obtain ⟨h1, h2⟩ := divideTens_within hpos hn hm (Nat.succ_pos k) (by omega) hlow hhigh
    obtain ⟨hnegative, hmagnitude⟩ := hsign _
      (divideTens_negative (x := Binary.ofNat Format.double n) rfl (k + 1))
    have hle : (n : ℚ) / 10 ^ (k + 1) ≤ n :=
      div_le_self (Nat.cast_nonneg n) (one_le_pow₀ (by norm_num))
    refine ⟨_, rfl, hnegative, ?_⟩
    rw [hmagnitude]
    exact ⟨Nat.lt_of_le_of_lt h2 (add_lt_infinity hn (hlow.trans hle)), h1, h2⟩

/-! ## Shortest decimals -/

theorem shortest_digits_lt {m : Nat} (tie : Tie) (hm : 0 < m) :
    (Format.double.shortest tie m).digits < 2 ^ 57 := by
  have hle := Format.double.shortest_digits_le tie hm
  have hsig := Format.double.significand_lt m
  have hf : Format.double.fractions = 2 ^ 52 := rfl
  omega

/-- The powers of ten of shortest decimals. -/
theorem shortest_exponent_bounds {m : Nat} (tie : Tie) (hm : 0 < m)
    (hm' : m < Format.double.infinity) :
    -340 ≤ (Format.double.shortest tie m).exponent ∧
      (Format.double.shortest tie m).exponent ≤ 308 := by
  have hdigits := shortest_digits_lt tie hm
  obtain ⟨p, j, h, hcontains, -⟩ := Format.double.exists_shortest tie hm
  obtain ⟨hleast, -, hmost⟩ := Interval.between_of_contains Format.double hm hcontains
  have hpos : 0 < p := by
    have := Format.double.shortest_digits_pos tie hm
    rwa [h] at this
  rw [h] at hdigits ⊢
  simp only at hdigits ⊢
  have hscale : Format.double.scale = 1074 := by decide
  constructor
  · by_contra hsmall
    have hj : j ≤ 733 := by omega
    obtain ⟨tens, htens, hlt⟩ : ∃ tens, Nat.pow 10 j ≤ tens ∧
        2 * (2 ^ 57 * tens) < 5 ^ Format.double.scale :=
      ⟨_, tens_le hj, by decide +kernel⟩
    have hle : 2 * (p * 10 ^ j) ≤ 2 * (2 ^ 57 * tens) :=
      Nat.mul_le_mul_left _ (Nat.mul_le_mul (Nat.le_of_lt hdigits) htens)
    exact absurd (Nat.lt_of_le_of_lt (Nat.le_trans hleast hle) hlt) (Nat.lt_irrefl _)
  · by_contra hlarge
    have hj : 1383 ≤ j := by omega
    obtain ⟨tens, htens, hlt⟩ : ∃ tens, tens ≤ Nat.pow 10 j ∧
        Format.double.units Format.double.infinity * 5 ^ Format.double.scale < tens :=
      ⟨_, tens_le hj, by decide +kernel⟩
    have hle : Format.double.units (m + 1) * 5 ^ Format.double.scale ≤
        Format.double.units Format.double.infinity * 5 ^ Format.double.scale :=
      Nat.mul_le_mul_right _ (Format.double.units_le hm')
    have hge : tens ≤ p * 10 ^ j := Nat.le_trans htens (Nat.le_mul_of_pos_left _ hpos)
    exact absurd (Nat.lt_of_le_of_lt (Nat.le_trans hge (Nat.le_trans hmost hle)) hlt)
      (Nat.lt_irrefl _)

/-! ## Without an error -/

/-- A whole number of 53 bits, shifted up or down until its significand is full. -/
theorem exists_full {n : Nat} (hpos : 0 < n) (hn : n ≤ 2 ^ 53) : ∃ p s, p ≤ Format.double.scale ∧
    Format.double.fractions ≤ s ∧ s ≤ 2 * Format.double.fractions ∧
    s * 2 ^ p = n * Format.double.one := by
  have hf : Format.double.fractions = 2 ^ 52 := rfl
  have hscale : 52 ≤ Format.double.scale := by decide
  rw [Format.one_eq]
  generalize Format.double.scale = scale at hscale ⊢
  rcases Nat.lt_or_ge n (2 ^ 52) with hlt | hge
  · have hlog : n.log2 < 52 := (Nat.log2_lt (by omega)).mpr hlt
    have hlow := Nat.log2_self_le (n := n) (by omega)
    have hhigh := Nat.lt_log2_self (n := n)
    have hsum : n.log2 + (52 - n.log2) = 52 := by omega
    refine ⟨scale - (52 - n.log2), n * 2 ^ (52 - n.log2), by omega, ?_, ?_, ?_⟩
    · calc Format.double.fractions
        _ = 2 ^ n.log2 * 2 ^ (52 - n.log2) := by rw [← Nat.pow_add, hsum, hf]
        _ ≤ n * 2 ^ (52 - n.log2) := Nat.mul_le_mul_right _ hlow
    · calc n * 2 ^ (52 - n.log2)
        _ ≤ 2 ^ (n.log2 + 1) * 2 ^ (52 - n.log2) := Nat.mul_le_mul_right _ (Nat.le_of_lt hhigh)
        _ = 2 * Format.double.fractions := by
          rw [Nat.pow_succ, Nat.mul_right_comm, ← Nat.pow_add, hsum, hf, Nat.mul_comm]
    · rw [Nat.mul_assoc, ← Nat.pow_add]
      congr 2
      omega
  · exact ⟨scale, n, Nat.le_refl _, by omega, by omega, rfl⟩

/-- A whole number of 53 bits is exact. -/
theorem units_ofNat {n : Nat} (hpos : 0 < n) (hn : n ≤ 2 ^ 53) :
    Format.double.units (Binary.ofNat Format.double n).magnitude = n * Format.double.one := by
  obtain ⟨p, s, hp, hlow, hhigh, hmul⟩ := exists_full hpos hn
  have hunits := Format.double.units_full (p := p) hlow hhigh
  have hle : p * Format.double.fractions + s ≤ Format.double.infinity := by
    have hmost : Format.double.scale * Format.double.fractions + 2 * Format.double.fractions ≤
        Format.double.infinity := by decide +kernel
    have := Nat.mul_le_mul_right Format.double.fractions hp
    omega
  have hround := Format.double.round_units Nat.one_pos hle
  rw [hunits, hmul, Nat.mul_one] at hround
  change Format.double.units (Format.double.round (n * Format.double.one) 1) = _
  rw [hround, hunits, hmul]

/-- The powers of ten up to `10 ^ 22` are exact. -/
theorem units_powerOfTen : ∀ k < 23,
    Format.double.units (powerOfTen k).magnitude = Nat.pow 10 k * Format.double.one := by
  decide +kernel

/-- A decimal with a significand of 53 bits and a small power of ten is rounded only once, and the
shortest decimal of a number to the number. -/
theorem ofScientific?_shortest (negative : Bool) {n m : Nat} {e : Int} {tie : Tie} (hm : 0 < m)
    (hm' : m < Format.double.infinity) (hpos : 0 < n) (hn : n ≤ 2 ^ 53) (hleast : -22 ≤ e)
    (hmost : e ≤ 22) (h : n * (10 : ℚ) ^ e = (Format.double.shortest tie m).value) {x : Double}
    (hx : ofScientific? negative n e = some x) : x.magnitude = m := by
  have hstart := value_of_units (units_ofNat hpos hn)
  have hmagnitude (y : Double) : (if negative then y.neg else y).magnitude = y.magnitude := by
    cases negative <;> rfl
  cases e with
  | ofNat k =>
    simp only [Int.ofNat_eq_natCast] at hmost
    have htens := value_of_units (units_powerOfTen k (by omega))
    have hround : ((Binary.ofNat Format.double n).mul (powerOfTen k)).magnitude = m := by
      refine Format.double.round_shortest tie hm hm'.le Format.double.one_pos ?_
      rw [Binary.value_mul, hstart, htens, ← h, Int.ofNat_eq_natCast, zpow_natCast]
      norm_cast
    have hk : k ≤ mostTens := Nat.le_trans (show k ≤ 22 by omega) (by decide)
    simp only [ofScientific?, multiplyTens?, if_pos hk, Option.map_eq_some_iff] at hx
    obtain ⟨y, hy, rfl⟩ := hx
    rw [hmagnitude]
    split at hy <;> cases hy
    exact hround
  | negSucc k =>
    have htens := value_of_units (units_powerOfTen (k + 1) (by omega))
    have hround : ((Binary.ofNat Format.double n).div (powerOfTen (k + 1))).magnitude = m := by
      refine Format.double.round_shortest tie hm hm'.le
        (units_ofNat_pos (tens_pos _) (tens_le (Nat.le_trans (show k + 1 ≤ 22 by omega) (by decide)))) ?_
      rw [Binary.value_div, hstart, htens, ← h, zpow_negSucc, div_eq_mul_inv]
      norm_cast
    have hk : k + 1 ≤ mostTens := Nat.le_trans (show k + 1 ≤ 22 by omega) (by decide)
    simp only [ofScientific?, Option.map_some, Option.some.injEq] at hx
    rw [← hx, hmagnitude, divideTens_of_le (Nat.succ_pos k) hk, hround]

end Double

end SyntaxForest.Numeric
