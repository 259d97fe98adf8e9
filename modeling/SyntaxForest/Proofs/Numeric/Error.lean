import Mathlib.Algebra.Order.Field.Rat
import Mathlib.Tactic.FieldSimp
import Mathlib.Tactic.GCongr
import Mathlib.Tactic.Linarith
import Mathlib.Tactic.Positivity
import Mathlib.Tactic.Ring
import SyntaxForest.Proofs.Numeric.Rounding

/-!
# Rounding errors, counted in magnitudes

Rounding changes a value by a factor that is off from one by the `roundoff` of the format at most,
and the next magnitude is further away than that. So whoever rounds a few times on the way ends as
many magnitudes off at most. `Near` counts the factors, which multiply along products and quotients,
and `round_within` turns their number into a distance of magnitudes.
-/

namespace SyntaxForest.Numeric

namespace Format

variable {F : Format}

/-! ## The steps between magnitudes -/

theorem significand_lt (F : Format) (m : Nat) : F.significand m < 2 * F.fractions := by
  have hpos := F.fractions_pos
  have hmod := Nat.mod_lt m hpos
  rw [significand]
  split <;> omega

theorem significand_pos (F : Format) {m : Nat} (hm : 0 < m) : 0 < F.significand m := by
  have hpos := F.fractions_pos
  rw [significand]
  split <;> omega

/-- A magnitude is its places and its significand. -/
theorem shift_mul_add_significand (F : Format) (m : Nat) :
    F.shift m * F.fractions + F.significand m = m := by
  rw [shift, significand]
  split
  · next hlt =>
    rw [Nat.div_eq_of_lt hlt]
    omega
  · next hge =>
    have hquot : 0 < m / F.fractions := Nat.div_pos (by omega) F.fractions_pos
    have hdiv := Nat.div_add_mod m F.fractions
    obtain ⟨q, hq⟩ : ∃ q, m / F.fractions = q + 1 := ⟨m / F.fractions - 1, by omega⟩
    rw [hq, Nat.mul_succ, Nat.mul_comm] at hdiv
    rw [hq, Nat.add_sub_cancel]
    omega

theorem shift_succ_le (F : Format) (m : Nat) : F.shift (m + 1) ≤ F.shift m + 1 := by
  have hdiv : (m + 1) / F.fractions ≤ m / F.fractions + 1 := by
    rw [Nat.succ_div]
    split <;> omega
  rw [shift, shift]
  omega

/-- The next magnitude is one binary place of the significand away. -/
theorem units_succ (F : Format) (m : Nat) : F.units (m + 1) = F.units m + 2 ^ F.shift m := by
  have hpos := F.fractions_pos
  rw [shift]
  rcases Nat.lt_trichotomy (m + 1) F.fractions with hm | hm | hm
  · have hdiv : m / F.fractions = 0 := Nat.div_eq_of_lt (by omega)
    rw [units_of_lt hm, units_of_lt (by omega), hdiv]
    rfl
  · have hlt : m < F.fractions := by omega
    rw [units_of_le (Nat.le_of_eq hm.symm), units_of_lt hlt, Nat.div_eq_of_lt hlt, hm,
      Nat.div_self hpos, Nat.mod_self]
    simp [hm]
  · have hle : F.fractions ≤ m := by omega
    have hquot : 0 < m / F.fractions := Nat.div_pos hle hpos
    have hrem : m % F.fractions < F.fractions := Nat.mod_lt _ hpos
    have hm := Nat.div_add_mod m F.fractions
    rw [units_of_le hle, units_of_le (by omega)]
    rcases Nat.lt_or_eq_of_le (Nat.succ_le_of_lt hrem) with hnext | hnext
    · have hdiv : (m + 1) / F.fractions = m / F.fractions :=
        Nat.div_eq_of_lt_le (by rw [Nat.mul_comm]; omega) (by rw [Nat.succ_mul, Nat.mul_comm]; omega)
      have hmod : (m + 1) % F.fractions = m % F.fractions + 1 := by
        have := Nat.div_add_mod (m + 1) F.fractions
        rw [hdiv] at this
        omega
      rw [hdiv, hmod, ← Nat.add_assoc, Nat.succ_mul]
    · -- The fraction is full, and the leading bit moves up.
      have hm' : m + 1 = F.fractions * (m / F.fractions + 1) := by
        rw [Nat.mul_succ]
        omega
      have hdiv : (m + 1) / F.fractions = m / F.fractions + 1 := by
        rw [hm', Nat.mul_div_cancel_left _ hpos]
      have hmod : (m + 1) % F.fractions = 0 := by rw [hm', Nat.mul_mod_right]
      rw [hdiv, hmod, Nat.add_sub_cancel, ← Nat.succ_mul]
      obtain ⟨q, hq⟩ : ∃ q, m / F.fractions = q + 1 := ⟨m / F.fractions - 1, by omega⟩
      rw [hq, Nat.add_sub_cancel, Nat.pow_succ]
      have hfull : (F.fractions + m % F.fractions).succ = F.fractions * 2 := by omega
      rw [hfull, Nat.add_zero, Nat.mul_assoc, Nat.mul_comm 2]

theorem units_lt (F : Format) {m n : Nat} (h : m < n) : F.units m < F.units n := by
  have hstep : 0 < 2 ^ F.shift m := Nat.pow_pos (by decide)
  have hsucc := F.units_succ m
  have hle := F.units_le (Nat.succ_le_of_lt h)
  rw [Nat.succ_eq_add_one] at hle
  omega

/-- A significand that is full, and may be just over, behind dropped places. -/
theorem units_full (F : Format) {p s : Nat} (hlow : F.fractions ≤ s) (hhigh : s ≤ 2 * F.fractions) :
    F.units (p * F.fractions + s) = s * 2 ^ p := by
  have hpos := F.fractions_pos
  have hle : F.fractions ≤ p * F.fractions + s := by omega
  rw [units_of_le hle]
  rcases Nat.lt_or_eq_of_le hhigh with hlt | rfl
  · obtain ⟨r, rfl⟩ : ∃ r, s = F.fractions + r := ⟨s - F.fractions, by omega⟩
    have hsplit : p * F.fractions + (F.fractions + r) = F.fractions * (p + 1) + r := by ring
    rw [hsplit, Nat.mul_add_div hpos, Nat.div_eq_of_lt (by omega), Nat.mul_add_mod,
      Nat.mod_eq_of_lt (by omega)]
    simp
  · have hsplit : p * F.fractions + 2 * F.fractions = F.fractions * (p + 2) := by ring
    rw [hsplit, Nat.mul_div_cancel_left _ hpos, Nat.mul_mod_right]
    rw [show p + 2 - 1 = p + 1 by omega, Nat.pow_succ]
    ring

/-! ## Values -/

theorem one_eq (F : Format) : F.one = 2 ^ F.scale := rfl

/-- The value of a finite magnitude. -/
def value (F : Format) (m : Nat) : ℚ := F.units m / F.one

/-- Half a place behind a full significand. -/
def roundoff (F : Format) : ℚ := 1 / (2 * F.fractions)

theorem one_pos_rat (F : Format) : (0 : ℚ) < F.one := by exact_mod_cast F.one_pos

theorem fractions_pos_rat (F : Format) : (0 : ℚ) < F.fractions := by exact_mod_cast F.fractions_pos

theorem roundoff_pos (F : Format) : 0 < F.roundoff := by
  have := F.fractions_pos_rat
  rw [roundoff]
  positivity

theorem roundoff_lt_one (F : Format) : F.roundoff < 1 := by
  have hf : (1 : ℚ) ≤ F.fractions := by exact_mod_cast F.fractions_pos
  rw [roundoff, div_lt_one (by linarith)]
  linarith

theorem value_zero (F : Format) : F.value 0 = 0 := by
  simp [value, units_of_lt F.fractions_pos]

theorem value_le_iff (F : Format) {m n : Nat} : F.value m ≤ F.value n ↔ m ≤ n := by
  rw [value, value, div_le_div_iff_of_pos_right F.one_pos_rat, Nat.cast_le]
  refine ⟨fun h => ?_, F.units_le⟩
  by_contra hlt
  have := F.units_lt (Nat.lt_of_not_le hlt)
  omega

/-- The step to the next magnitude, as a part of either value. -/
theorem roundoff_mul_le (F : Format) (m : Nat) :
    F.roundoff * F.value (m + 1) ≤ F.value (m + 1) - F.value m := by
  have hf := F.fractions_pos_rat
  have hone := F.one_pos_rat
  have hunits : F.units (m + 1) ≤ 2 * F.fractions * 2 ^ F.shift m := by
    have hsig : F.significand m + 1 ≤ 2 * F.fractions := F.significand_lt m
    calc F.units (m + 1)
      _ = (F.significand m + 1) * 2 ^ F.shift m := by rw [F.units_succ, Nat.succ_mul]; rfl
      _ ≤ 2 * F.fractions * 2 ^ F.shift m := Nat.mul_le_mul_right _ hsig
  have hcast : (F.units (m + 1) : ℚ) ≤ 2 * F.fractions * 2 ^ F.shift m := by exact_mod_cast hunits
  have hsucc : (F.units (m + 1) : ℚ) = F.units m + 2 ^ F.shift m := by exact_mod_cast F.units_succ m
  have hstep : F.value (m + 1) - F.value m = 2 ^ F.shift m / F.one := by
    rw [value, value, hsucc]
    ring
  rw [hstep, value, roundoff, div_mul_div_comm, one_mul, div_le_div_iff₀ (by positivity) hone]
  calc (F.units (m + 1) : ℚ) * F.one
    _ ≤ 2 * F.fractions * 2 ^ F.shift m * F.one := by gcongr
    _ = 2 ^ F.shift m * (2 * F.fractions * F.one) := by ring

theorem value_mul_le (F : Format) (m j : Nat) :
    (1 + F.roundoff) ^ j * F.value m ≤ F.value (m + j) := by
  have hpos := F.roundoff_pos
  induction j with
  | zero => simp
  | succ j ih =>
    have hstep := F.roundoff_mul_le (m + j)
    have hle : F.value (m + j) ≤ F.value (m + (j + 1)) := F.value_le_iff.mpr (by omega)
    calc (1 + F.roundoff) ^ (j + 1) * F.value m
      _ = (1 + F.roundoff) * ((1 + F.roundoff) ^ j * F.value m) := by ring
      _ ≤ (1 + F.roundoff) * F.value (m + j) := by gcongr
      _ = F.value (m + j) + F.roundoff * F.value (m + j) := by ring
      _ ≤ F.value (m + j) + F.roundoff * F.value (m + (j + 1)) := by gcongr
      _ ≤ F.value (m + (j + 1)) := by
        rw [← Nat.add_assoc]
        linarith

theorem value_le_mul (F : Format) (m j : Nat) :
    F.value m ≤ (1 - F.roundoff) ^ j * F.value (m + j) := by
  have hlt := F.roundoff_lt_one
  induction j with
  | zero => simp
  | succ j ih =>
    have hstep := F.roundoff_mul_le (m + j)
    have hnonneg : 0 ≤ 1 - F.roundoff := by linarith
    calc F.value m
      _ ≤ (1 - F.roundoff) ^ j * F.value (m + j) := ih
      _ ≤ (1 - F.roundoff) ^ j * ((1 - F.roundoff) * F.value (m + (j + 1))) := by
        gcongr
        rw [← Nat.add_assoc]
        linarith
      _ = (1 - F.roundoff) ^ (j + 1) * F.value (m + (j + 1)) := by ring

/-! ## One rounding -/

/-- The nearest whole number is half a step away at most. -/
theorem roundDiv_half (num : Nat) {den : Nat} (hden : 0 < den) :
    2 * num ≤ 2 * (roundDiv num den * den) + den ∧ 2 * (roundDiv num den * den) ≤ 2 * num + den := by
  have hsplit := Nat.div_add_mod num den
  have hmod := Nat.mod_lt num hden
  rw [Nat.mul_comm] at hsplit
  have hodd : num / den % 2 = 0 ∨ num / den % 2 = 1 := by omega
  rw [roundDiv]
  split
  · omega
  · split
    · rw [Nat.add_mul, Nat.one_mul]
      omega
    · rcases hodd with h | h <;> rw [h, Nat.add_mul] <;> omega

/-- The only whole number half a step away at most is the nearest one, and the even one of two. -/
theorem roundDiv_eq {num den k : Nat} (hden : 0 < den) (hlow : 2 * (k * den) ≤ 2 * num + den)
    (hhigh : 2 * num ≤ 2 * (k * den) + den)
    (hodd : k % 2 = 1 → 2 * (k * den) < 2 * num + den ∧ 2 * num < 2 * (k * den) + den) :
    roundDiv num den = k := by
  have hsplit (q r : Nat) (hr : r < den) (hnum : num = q * den + r) :
      num / den = q ∧ num % den = r := by
    rw [hnum, Nat.mul_comm, Nat.mul_add_div hden, Nat.div_eq_of_lt hr, Nat.mul_add_mod,
      Nat.mod_eq_of_lt hr]
    exact ⟨rfl, rfl⟩
  rw [roundDiv]
  rcases Nat.lt_or_ge num (k * den) with hlt | hge
  · cases k with
    | zero => omega
    | succ k =>
      rw [Nat.succ_mul k den] at hlow hhigh hodd hlt
      obtain ⟨hquot, hrem⟩ := hsplit k (num - k * den) (by omega) (by omega)
      rw [hquot, hrem]
      split
      · omega
      · split <;> omega
  · obtain ⟨hquot, hrem⟩ := hsplit k (num - k * den) (by omega) (by omega)
    rw [hquot, hrem]
    split
    · rfl
    · split <;> omega

/-- Places are dropped until the significand is full and not over. -/
theorem places_eq {num den p : Nat} (hden : 0 < den)
    (hlow : p = 0 ∨ den * 2 ^ p * F.fractions ≤ num) (hhigh : num < den * 2 ^ p * (2 * F.fractions)) :
    F.places num den = p := by
  have hpower : den * 2 ^ p * (2 * F.fractions) = 2 ^ (p + F.fractionBits + 1) * den := by
    rw [Nat.pow_succ, Nat.pow_add]
    change _ = 2 ^ p * F.fractions * 2 * den
    ring
  have hlog : (num / den).log2 ≤ p + F.fractionBits := by
    by_cases hzero : num / den = 0
    · simp [hzero]
    · refine Nat.le_of_lt_succ ((Nat.log2_lt hzero).mpr ?_)
      rw [Nat.div_lt_iff_lt_mul hden, ← hpower]
      exact hhigh
  rw [places]
  rcases hlow with rfl | hlow
  · omega
  · have hquot : 2 ^ (p + F.fractionBits) ≤ num / den := by
      rw [Nat.le_div_iff_mul_le hden, Nat.pow_add]
      change 2 ^ p * F.fractions * den ≤ num
      rw [Nat.mul_comm, ← Nat.mul_assoc]
      exact hlow
    have hpos : 0 < 2 ^ (p + F.fractionBits) := Nat.pow_pos (by decide)
    have := (Nat.le_log2 (by omega)).mpr hquot
    omega

/-- The significand of a magnitude is full unless no place is dropped. -/
theorem shift_eq_zero_or_le (F : Format) (m : Nat) : F.shift m = 0 ∨ F.fractions ≤ F.significand m := by
  rw [shift, significand]
  split
  · next hlt =>
    left
    rw [Nat.div_eq_of_lt hlt]
  · omega

/-- A value that is a magnitude is rounded to that magnitude. -/
theorem round_units (F : Format) {n den : Nat} (hden : 0 < den) (hn : n ≤ F.infinity) :
    F.round (F.units n * den) den = n := by
  have hmul : F.units n * den = den * 2 ^ F.shift n * F.significand n := by
    change F.significand n * 2 ^ F.shift n * den = _
    ring
  have hstep : 0 < den * 2 ^ F.shift n := Nat.mul_pos hden (Nat.pow_pos (by decide))
  have hplaces : F.places (F.units n * den) den = F.shift n := by
    rw [hmul]
    refine places_eq hden ?_ (Nat.mul_lt_mul_of_pos_left (F.significand_lt n) hstep)
    exact (F.shift_eq_zero_or_le n).imp_right (Nat.mul_le_mul_left _)
  have hexact : roundDiv (F.units n * den) (den * 2 ^ F.shift n) = F.significand n := by
    apply Nat.le_antisymm
    · exact roundDiv_le_of_le_mul hstep (Nat.le_of_eq hmul)
    · exact le_roundDiv_of_mul_le hstep (Nat.le_of_eq hmul.symm)
  rw [round_eq, hplaces, hexact, F.shift_mul_add_significand, Nat.min_eq_left hn]

theorem cast_div_le_value {num den n : Nat} (hden : 0 < den) :
    (num : ℚ) / (den * F.one) ≤ F.value n ↔ num ≤ F.units n * den := by
  have hd : (0 : ℚ) < den := by exact_mod_cast hden
  have hone := F.one_pos_rat
  rw [value, div_le_div_iff₀ (by positivity) hone, ← mul_assoc, mul_le_mul_iff_left₀ hone]
  exact_mod_cast Iff.rfl

theorem value_le_cast_div {num den n : Nat} (hden : 0 < den) :
    F.value n ≤ (num : ℚ) / (den * F.one) ↔ F.units n * den ≤ num := by
  have hd : (0 : ℚ) < den := by exact_mod_cast hden
  have hone := F.one_pos_rat
  rw [value, div_le_div_iff₀ hone (by positivity), ← mul_assoc, mul_le_mul_iff_left₀ hone]
  exact_mod_cast Iff.rfl

theorem round_le_of_le_value {num den n : Nat} (hden : 0 < den)
    (h : (num : ℚ) / (den * F.one) ≤ F.value n) : F.round num den ≤ n := by
  rcases Nat.le_total n F.infinity with hn | hn
  · rw [← F.round_units hden hn]
    exact F.round_le hden ((cast_div_le_value hden).mp h)
  · exact Nat.le_trans (F.round_le_infinity num den) hn

theorem le_round_of_value_le {num den n : Nat} (hden : 0 < den) (hn : n ≤ F.infinity)
    (h : F.value n ≤ (num : ℚ) / (den * F.one)) : n ≤ F.round num den := by
  rw [← F.round_units hden hn]
  exact F.round_le hden ((value_le_cast_div hden).mp h)

/-! ## Several roundings -/

/-- The second value is the first but for at most as many roundings. -/
structure Near (F : Format) (j : Nat) (r s : ℚ) : Prop where
  low : (1 - F.roundoff) ^ j * r ≤ s
  high : s ≤ (1 + F.roundoff) ^ j * r

theorem pow_one_sub_roundoff_pos (F : Format) (j : Nat) : 0 < (1 - F.roundoff) ^ j := by
  have := F.roundoff_lt_one
  exact pow_pos (by linarith) j

theorem pow_one_add_roundoff_pos (F : Format) (j : Nat) : 0 < (1 + F.roundoff) ^ j := by
  have := F.roundoff_pos
  positivity

namespace Near

variable {j k : Nat} {r s t r' s' : ℚ}

theorem pos (h : F.Near j r s) (hr : 0 < r) : 0 < s := by
  have := F.pow_one_sub_roundoff_pos j
  exact lt_of_lt_of_le (by positivity) h.low

theorem trans (h : F.Near j r s) (h' : F.Near k s t) : F.Near (j + k) r t where
  low := by
    have hpos := F.pow_one_sub_roundoff_pos k
    calc (1 - F.roundoff) ^ (j + k) * r
      _ = (1 - F.roundoff) ^ k * ((1 - F.roundoff) ^ j * r) := by ring
      _ ≤ (1 - F.roundoff) ^ k * s := by gcongr; exact h.low
      _ ≤ t := h'.low
  high := by
    have hpos := F.pow_one_add_roundoff_pos k
    calc t
      _ ≤ (1 + F.roundoff) ^ k * s := h'.high
      _ ≤ (1 + F.roundoff) ^ k * ((1 + F.roundoff) ^ j * r) := by gcongr; exact h.high
      _ = (1 + F.roundoff) ^ (j + k) * r := by ring

theorem mul (h : F.Near j r s) (h' : F.Near k r' s') (hr : 0 < r) (hr' : 0 < r') :
    F.Near (j + k) (r * r') (s * s') where
  low := by
    have hj := F.pow_one_sub_roundoff_pos j
    have hk := F.pow_one_sub_roundoff_pos k
    have hs := h.pos hr
    calc (1 - F.roundoff) ^ (j + k) * (r * r')
      _ = ((1 - F.roundoff) ^ j * r) * ((1 - F.roundoff) ^ k * r') := by ring
      _ ≤ s * s' := mul_le_mul h.low h'.low (by positivity) hs.le
  high := by
    have hj := F.pow_one_add_roundoff_pos j
    have hs' := h'.pos hr'
    calc s * s'
      _ ≤ ((1 + F.roundoff) ^ j * r) * ((1 + F.roundoff) ^ k * r') :=
        mul_le_mul h.high h'.high hs'.le (by positivity)
      _ = (1 + F.roundoff) ^ (j + k) * (r * r') := by ring

/-- A divisor must be near the exact one as seen from itself. -/
theorem div (h : F.Near j r s) (h' : F.Near k s' r') (hr : 0 < r) (hs' : 0 < s') :
    F.Near (j + k) (r / r') (s / s') where
  low := by
    have hk := F.pow_one_sub_roundoff_pos k
    have hs := h.pos hr
    rw [← mul_div_assoc, div_le_div_iff₀ (h'.pos hs') hs']
    calc (1 - F.roundoff) ^ (j + k) * r * s'
      _ = ((1 - F.roundoff) ^ j * r) * ((1 - F.roundoff) ^ k * s') := by ring
      _ ≤ s * r' := mul_le_mul h.low h'.low (by positivity) hs.le
  high := by
    have hj := F.pow_one_add_roundoff_pos j
    have hr' := h'.pos hs'
    rw [← mul_div_assoc, div_le_div_iff₀ hs' hr']
    calc s * r'
      _ ≤ ((1 + F.roundoff) ^ j * r) * ((1 + F.roundoff) ^ k * s') :=
        mul_le_mul h.high h'.high hr'.le (by positivity)
      _ = (1 + F.roundoff) ^ (j + k) * r * s' := by ring

end Near

/-- Rounding a value with a full significand costs one factor, seen from either side. -/
theorem near_round {num den : Nat} (hden : 0 < den) (hfull : F.fractions * den ≤ num)
    (hfinite : F.round num den < F.infinity) :
    F.Near 1 (num / (den * F.one)) (F.value (F.round num den)) ∧
      F.Near 1 (F.value (F.round num den)) (num / (den * F.one)) := by
  let p := F.places num den
  let s := roundDiv num (den * 2 ^ p)
  have hstep : 0 < den * 2 ^ p := Nat.mul_pos hden (Nat.pow_pos (by decide))
  have hnum : den * 2 ^ p * F.fractions ≤ num := by
    rcases Nat.eq_zero_or_pos p with hp | hp
    · rw [hp, Nat.pow_zero, Nat.mul_one, Nat.mul_comm]
      exact hfull
    · exact le_num_of_places hp
  have hlow : F.fractions ≤ s := le_roundDiv_of_mul_le hstep hnum
  have hhigh : s ≤ 2 * F.fractions := roundDiv_le_of_le_mul hstep (F.num_le_of_places num hden)
  have hround : F.round num den = p * F.fractions + s := by
    rw [round_eq] at hfinite ⊢
    exact Nat.min_eq_left (by omega)
  have hvalue : F.value (F.round num den) = (s * (den * 2 ^ p) : ℚ) / (den * F.one) := by
    have hd : (den : ℚ) ≠ 0 := by exact_mod_cast hden.ne'
    rw [hround, value, F.units_full hlow hhigh]
    push_cast
    rw [← mul_div_mul_left _ _ hd]
    ring
  -- Half a step is at most the roundoff of either value.
  obtain ⟨hover, hunder⟩ := roundDiv_half num hstep
  have hf := F.fractions_pos_rat
  have hover' : (2 * num : ℚ) ≤ 2 * (s * (den * 2 ^ p)) + den * 2 ^ p := by exact_mod_cast hover
  have hunder' : (2 * (s * (den * 2 ^ p)) : ℚ) ≤ 2 * num + den * 2 ^ p := by exact_mod_cast hunder
  have hhalf {x : ℚ} (hx : den * 2 ^ p * F.fractions ≤ x) : den * 2 ^ p / 2 ≤ F.roundoff * x := by
    rw [roundoff, one_div_mul_eq_div, div_le_div_iff₀ (by norm_num) (by positivity)]
    linarith
  have hnum' : (den * 2 ^ p / 2 : ℚ) ≤ F.roundoff * num := hhalf (by exact_mod_cast hnum)
  have hs' : (den * 2 ^ p / 2 : ℚ) ≤ F.roundoff * (s * (den * 2 ^ p)) := by
    apply hhalf
    have : den * 2 ^ p * F.fractions ≤ s * (den * 2 ^ p) := by
      rw [Nat.mul_comm]
      exact Nat.mul_le_mul_right _ hlow
    exact_mod_cast this
  have hscale : (0 : ℚ) < den * F.one := mul_pos (by exact_mod_cast hden) F.one_pos_rat
  rw [hvalue]
  constructor <;> constructor <;>
    rw [pow_one, ← mul_div_assoc, div_le_div_iff_of_pos_right hscale] <;> linarith

/-- What lies between the neighbours of a magnitude is rounded to a magnitude near to it after a few
other roundings. -/
theorem round_within {num den j m : Nat} {r : ℚ} (hden : 0 < den) (hm : m ≤ F.infinity)
    (hlow : F.value (m - 1) ≤ r) (hhigh : r ≤ F.value (m + 1))
    (h : F.Near j r (num / (den * F.one))) :
    m ≤ F.round num den + (j + 1) ∧ F.round num den ≤ m + (j + 1) := by
  constructor
  · rcases Nat.lt_or_ge m (j + 1) with hsmall | hlarge
    · omega
    · obtain ⟨n, rfl⟩ : ∃ n, m = n + j + 1 := ⟨m - (j + 1), by omega⟩
      have hpos := F.pow_one_sub_roundoff_pos j
      have hvalue : F.value n ≤ (num : ℚ) / (den * F.one) :=
        calc F.value n
          _ ≤ (1 - F.roundoff) ^ j * F.value (n + j) := F.value_le_mul n j
          _ ≤ (1 - F.roundoff) ^ j * r := by gcongr; exact hlow
          _ ≤ (num : ℚ) / (den * F.one) := h.low
      have := le_round_of_value_le hden (by omega) hvalue
      omega
  · have hpos := F.pow_one_add_roundoff_pos j
    have hvalue : (num : ℚ) / (den * F.one) ≤ F.value (m + 1 + j) :=
      calc (num : ℚ) / (den * F.one)
        _ ≤ (1 + F.roundoff) ^ j * r := h.high
        _ ≤ (1 + F.roundoff) ^ j * F.value (m + 1) := by gcongr
        _ ≤ F.value (m + 1 + j) := F.value_mul_le (m + 1) j
    have := round_le_of_le_value hden hvalue
    omega

end Format

end SyntaxForest.Numeric
