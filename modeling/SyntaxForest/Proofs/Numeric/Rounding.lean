import Mathlib.Algebra.GroupWithZero.Nat
import SyntaxForest.Numeric.Binary

/-!
# Rounding keeps the order

Larger magnitudes stand for larger values, and of two exact values the larger one is not rounded
below the smaller one. So converting finite numbers to another format keeps their order
(`Binary.convert_magnitude_le`), and what lies between zero and a number that stays finite stays
finite.
-/

namespace SyntaxForest.Numeric

namespace Format

theorem fractions_pos (F : Format) : 0 < F.fractions := Nat.pow_pos (by decide)

theorem one_pos (F : Format) : 0 < F.one := Nat.pow_pos (by decide)

/-! ## Magnitudes and units -/

/-- A magnitude below the first leading bit counts its own units. -/
theorem units_of_lt {F : Format} {m : Nat} (h : m < F.fractions) : F.units m = m := by
  simp [units, significand, shift, h, Nat.div_eq_of_lt h]

theorem units_of_le {F : Format} {m : Nat} (h : F.fractions ≤ m) :
    F.units m = (F.fractions + m % F.fractions) * 2 ^ (m / F.fractions - 1) := by
  rw [units, significand, if_neg (by omega), shift]
  rfl

/-- A magnitude with a leading bit reaches the power of two at that bit, and not the next one. -/
theorem units_bounds {F : Format} {m : Nat} (h : F.fractions ≤ m) :
    F.fractions * 2 ^ (m / F.fractions - 1) ≤ F.units m ∧
      F.units m < F.fractions * 2 ^ (m / F.fractions) := by
  have hquot : 0 < m / F.fractions := Nat.div_pos h F.fractions_pos
  have hrem : m % F.fractions < F.fractions := Nat.mod_lt _ F.fractions_pos
  rw [units_of_le h]
  refine ⟨Nat.mul_le_mul_right _ (Nat.le_add_right _ _), ?_⟩
  calc (F.fractions + m % F.fractions) * 2 ^ (m / F.fractions - 1)
    _ < (2 * F.fractions) * 2 ^ (m / F.fractions - 1) :=
      Nat.mul_lt_mul_of_pos_right (by omega) (Nat.pow_pos (by decide))
    _ = F.fractions * 2 ^ (m / F.fractions - 1 + 1) := by
      rw [Nat.pow_succ, Nat.mul_comm 2 F.fractions, Nat.mul_assoc, Nat.mul_comm 2]
    _ = F.fractions * 2 ^ (m / F.fractions) := by rw [Nat.sub_add_cancel hquot]

theorem units_le (F : Format) {m n : Nat} (h : m ≤ n) : F.units m ≤ F.units n := by
  by_cases hm : m < F.fractions
  · rw [units_of_lt hm]
    by_cases hn : n < F.fractions
    · rwa [units_of_lt hn]
    · have hle : F.fractions ≤ n := by omega
      have hone : F.fractions * 1 ≤ F.fractions * 2 ^ (n / F.fractions - 1) :=
        Nat.mul_le_mul_left _ (Nat.pow_pos (by decide))
      have := (units_bounds hle).1
      omega
  · have hm : F.fractions ≤ m := by omega
    have hn : F.fractions ≤ n := by omega
    rcases Nat.eq_or_lt_of_le (Nat.div_le_div_right (c := F.fractions) h) with hquot | hquot
    · -- With the same leading bit the fractions decide.
      rw [units_of_le hm, units_of_le hn, hquot]
      apply Nat.mul_le_mul_right
      have hm := Nat.div_add_mod m F.fractions
      have hn := Nat.div_add_mod n F.fractions
      rw [hquot] at hm
      omega
    · have hpow : F.fractions * 2 ^ (m / F.fractions) ≤ F.fractions * 2 ^ (n / F.fractions - 1) :=
        Nat.mul_le_mul_left _ (Nat.pow_le_pow_right (by decide) (by omega))
      have := (units_bounds hm).2
      have := (units_bounds hn).1
      omega

/-! ## The nearest whole number -/

/-- Rounding a quotient takes one of the two whole numbers around it. -/
theorem roundDiv_bounds (num den : Nat) :
    num / den ≤ roundDiv num den ∧ roundDiv num den ≤ num / den + 1 := by
  rw [roundDiv]
  split
  · omega
  · split <;> omega

theorem roundDiv_le {a b den : Nat} (h : a ≤ b) : roundDiv a den ≤ roundDiv b den := by
  have hhigh := (roundDiv_bounds a den).2
  have hlow := (roundDiv_bounds b den).1
  rcases Nat.eq_or_lt_of_le (Nat.div_le_div_right (c := den) h) with hquot | hquot
  · have ha := Nat.div_add_mod a den
    have hb := Nat.div_add_mod b den
    rw [hquot] at ha hhigh
    have hrem : a % den ≤ b % den := by omega
    by_cases hdown : 2 * (a % den) < den
    · rw [roundDiv, if_pos hdown, hquot]
      exact hlow
    by_cases hup : den < 2 * (b % den)
    · have hroundup : roundDiv b den = b / den + 1 := by
        rw [roundDiv, if_neg (by omega), if_pos hup]
      omega
    · -- Both remainders are the half, so the two quotients are the same.
      have hhalf : a % den = b % den := by omega
      have hsame : roundDiv a den = roundDiv b den := by rw [roundDiv, roundDiv, hquot, hhalf]
      exact Nat.le_of_eq hsame
  · omega

theorem roundDiv_le_of_le_mul {num den k : Nat} (hden : 0 < den) (h : num ≤ den * k) :
    roundDiv num den ≤ k := by
  have hexact : roundDiv (den * k) den = k := by
    simp [roundDiv, Nat.mul_div_cancel_left k hden, hden]
  exact hexact ▸ roundDiv_le h

theorem le_roundDiv_of_mul_le {num den k : Nat} (hden : 0 < den) (h : den * k ≤ num) :
    k ≤ roundDiv num den := by
  have hquot : k ≤ num / den := (Nat.le_div_iff_mul_le hden).mpr (by rwa [Nat.mul_comm])
  exact Nat.le_trans hquot (roundDiv_bounds num den).1

/-! ## The nearest magnitude -/

/-- The binary places that are dropped from `num / den` units. -/
def places (F : Format) (num den : Nat) : Nat := (num / den).log2 - F.fractionBits

theorem round_eq (F : Format) (num den : Nat) :
    F.round num den = min (F.places num den * F.fractions +
      roundDiv num (den * 2 ^ F.places num den)) F.infinity := rfl

theorem places_le (F : Format) {a b : Nat} (den : Nat) (h : a ≤ b) :
    F.places a den ≤ F.places b den := by
  have hquot : a / den ≤ b / den := Nat.div_le_div_right h
  have hlog : (a / den).log2 ≤ (b / den).log2 := by
    by_cases ha : a / den = 0
    · simp [ha]
    · have hb : b / den ≠ 0 := fun hb => ha (Nat.le_zero.mp (hb ▸ hquot))
      exact (Nat.le_log2 hb).mpr (Nat.le_trans (Nat.log2_self_le ha) hquot)
  rw [places, places]
  omega

/-- What is left in front of the dropped places is below the power of two behind a full
significand. -/
theorem num_le_of_places (F : Format) (num : Nat) {den : Nat} (hden : 0 < den) :
    num ≤ den * 2 ^ F.places num den * (2 * F.fractions) := by
  have hlog : num / den < 2 ^ ((num / den).log2 + 1) := Nat.lt_log2_self
  have hpow : 2 ^ ((num / den).log2 + 1) ≤ 2 ^ (F.places num den + F.fractionBits + 1) :=
    Nat.pow_le_pow_right (by decide) (by rw [places]; omega)
  have hnum : num < 2 ^ (F.places num den + F.fractionBits + 1) * den :=
    (Nat.div_lt_iff_lt_mul hden).mp (Nat.lt_of_lt_of_le hlog hpow)
  rw [Nat.mul_comm, Nat.pow_succ, Nat.pow_add, Nat.mul_assoc (2 ^ _), Nat.mul_comm _ 2,
    ← Nat.mul_assoc] at hnum
  exact Nat.le_of_lt hnum

/-- Places are only dropped behind a full significand. -/
theorem le_num_of_places {F : Format} {num den : Nat} (h : 0 < F.places num den) :
    den * 2 ^ F.places num den * F.fractions ≤ num := by
  have hne : num / den ≠ 0 := by
    intro hzero
    simp [places, hzero] at h
  have hlog : (num / den).log2 = F.places num den + F.fractionBits := by
    rw [places] at h ⊢
    omega
  calc den * 2 ^ F.places num den * F.fractions
    _ = den * 2 ^ (num / den).log2 := by
      rw [hlog, Nat.pow_add, ← Nat.mul_assoc]
      rfl
    _ ≤ den * (num / den) := Nat.mul_le_mul_left _ (Nat.log2_self_le hne)
    _ ≤ num := Nat.mul_div_le num den

/-- Of two exact values the larger one is not rounded below the smaller one. -/
theorem round_le (F : Format) {a b den : Nat} (hden : 0 < den) (h : a ≤ b) :
    F.round a den ≤ F.round b den := by
  have hstep (k : Nat) : 0 < den * 2 ^ k := Nat.mul_pos hden (Nat.pow_pos (by decide))
  rw [round_eq, round_eq]
  suffices hle : F.places a den * F.fractions + roundDiv a (den * 2 ^ F.places a den) ≤
      F.places b den * F.fractions + roundDiv b (den * 2 ^ F.places b den) by omega
  rcases Nat.eq_or_lt_of_le (F.places_le den h) with hplaces | hplaces
  · rw [hplaces]
    exact Nat.add_le_add_left (roundDiv_le h) _
  · -- The smaller value may round up to a power of two, and the larger one has reached the next.
    have ha : roundDiv a (den * 2 ^ F.places a den) ≤ 2 * F.fractions :=
      roundDiv_le_of_le_mul (hstep _) (F.num_le_of_places a hden)
    have hb : F.fractions ≤ roundDiv b (den * 2 ^ F.places b den) :=
      le_roundDiv_of_mul_le (hstep _) (le_num_of_places (by omega))
    have hmul : (F.places a den + 1) * F.fractions ≤ F.places b den * F.fractions :=
      Nat.mul_le_mul_right _ hplaces
    rw [Nat.succ_mul] at hmul
    omega

end Format

namespace Binary

variable {F : Format}

theorem isFinite_iff {x : Binary F} : x.isFinite = true ↔ x.magnitude < F.infinity := by
  simp [isFinite]

theorem convert_of_isFinite (G : Format) {x : Binary F} (h : x.isFinite = true) :
    (x.convert G).magnitude = G.round (F.units x.magnitude * G.one) F.one := by
  have hnan : x.isNaN = false := by
    have := isFinite_iff.mp h
    simp only [isNaN, decide_eq_false_iff_not]
    omega
  simp [convert, hnan, h]

/-- Converting finite numbers keeps the order of their magnitudes. -/
theorem convert_magnitude_le (G : Format) {x y : Binary F} (hx : x.isFinite = true)
    (hy : y.isFinite = true) (h : x.magnitude ≤ y.magnitude) :
    (x.convert G).magnitude ≤ (y.convert G).magnitude := by
  rw [convert_of_isFinite G hx, convert_of_isFinite G hy]
  exact G.round_le F.one_pos (Nat.mul_le_mul_right _ (F.units_le h))

theorem magnitude_le_largest {x : Binary F} (h : x.isFinite = true) :
    x.magnitude ≤ (largest F).magnitude := by
  have := isFinite_iff.mp h
  simp only [largest]
  omega

/-- A finite 32-bit number stays finite, and not above the largest one, when it is widened. -/
theorem isFinite_convert_double {x : Single} (h : x.isFinite = true) :
    (x.convert Format.double).isFinite = true ∧
      (x.convert Format.double).magnitude ≤
        ((largest Format.single).convert Format.double).magnitude := by
  have hlargest : (largest Format.single).isFinite = true := by decide +kernel
  have hle := convert_magnitude_le Format.double h hlargest (magnitude_le_largest h)
  have hbound : ((largest Format.single).convert Format.double).isFinite = true := by
    decide +kernel
  rw [isFinite_iff] at hbound ⊢
  exact ⟨Nat.lt_of_le_of_lt hle hbound, hle⟩

end Binary

end SyntaxForest.Numeric
