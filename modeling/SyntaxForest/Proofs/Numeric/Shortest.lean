import SyntaxForest.Numeric.Shortest
import SyntaxForest.Proofs.Numeric.Error

/-!
# Where shortest decimals lie

The search for the shortest decimal of a number never leaves the interval of the number, so the
decimal lies between the two neighbours of the number (`shortest_between`). It stops on the first
grid that is finer than the interval, so the decimal has few digits (`shortest_digits_le`).
-/

namespace SyntaxForest.Numeric

open SyntaxForest.Numeric.Interval

namespace Interval

variable {I : Interval}

theorem contains_bounds {x : Nat} (h : I.contains x = true) : I.below ≤ x ∧ x ≤ I.above := by
  rw [contains] at h
  split at h <;> simp only [Bool.and_eq_true, decide_eq_true_eq] at h <;> omega

theorem bounds_of_not_contains {x : Nat} (h : I.contains x = false) : x ≤ I.below ∨ I.above ≤ x := by
  rw [contains] at h
  split at h <;> simp only [Bool.and_eq_false_iff, decide_eq_false_iff_not] at h <;> omega

theorem contains_value (hbelow : I.below < I.value) (habove : I.value < I.above) :
    I.contains I.value = true := by
  rw [contains]
  split <;> simp only [Bool.and_eq_true, decide_eq_true_eq] <;> omega

/-- A neighbour on a grid is a point of the interval. -/
theorem contains_of_neighbour? {tie : Tie} {j p : Nat} (h : I.neighbour? tie j = some p) :
    I.contains (p * (4 * 10 ^ j)) = true := by
  simp only [neighbour?] at h
  split at h
  · cases h
  · next hdown _ =>
    cases h
    exact hdown
  · next hup =>
    cases h
    exact hup
  · next hdown hup =>
    have hboth : p = I.value / (4 * Nat.pow 10 j) ∨ p = I.value / (4 * Nat.pow 10 j) + 1 := by
      split at h
      · cases h
        exact .inl rfl
      · split at h
        · cases h
          exact .inr rfl
        · split at h <;> cases h
          · exact .inr rfl
          · omega
    rcases hboth with rfl | rfl
    · exact hdown
    · exact hup

/-- A grid without a neighbour in the interval is as wide as the interval. -/
theorem above_le_of_neighbour? {tie : Tie} {j : Nat} (h : I.neighbour? tie j = none)
    (hbelow : I.below < I.value) (habove : I.value < I.above) : I.above ≤ I.below + 4 * 10 ^ j := by
  have hgrid : 0 < 4 * 10 ^ j := Nat.mul_pos (by decide) (Nat.pow_pos (by decide))
  have hle := Nat.div_mul_le_self I.value (4 * 10 ^ j)
  have hlt := Nat.lt_div_mul_add (a := I.value) hgrid
  simp only [neighbour?] at h
  split at h
  · next hdown hup =>
    have hdown := bounds_of_not_contains hdown
    have hup := bounds_of_not_contains hup
    simp only [show Nat.pow 10 j = 10 ^ j from rfl] at hdown hup
    rw [Nat.succ_mul] at hup
    omega
  · cases h
  · cases h
  · split at h
    · cases h
    · split at h
      · cases h
      · split at h <;> cases h

/-- The search ends at a point of the interval, on the first grid it tries or on one behind a grid
that is as wide as the interval. -/
theorem search_spec (tie : Tie) (c : Nat) (hbelow : I.below < I.value) (habove : I.value < I.above)
    (hquarters : 4 ∣ I.value) :
    I.contains ((I.search tie c).1 * (4 * 10 ^ (I.search tie c).2)) = true ∧
      ((I.search tie c).2 = c ∨ I.above ≤ I.below + 4 * 10 ^ ((I.search tie c).2 + 1)) := by
  induction c with
  | zero =>
    simp only [search, Nat.pow_zero, Nat.mul_one, Nat.div_mul_cancel hquarters]
    exact ⟨contains_value hbelow habove, .inl trivial⟩
  | succ c ih =>
    rw [search]
    split
    · next p hp => exact ⟨contains_of_neighbour? hp, .inl rfl⟩
    · next hnone =>
      refine ⟨ih.1, .inr ?_⟩
      rcases ih.2 with hc | hc
      · rw [hc]
        exact above_le_of_neighbour? hnone hbelow habove
      · exact hc

/-- The coarsest grid is coarser than the value. -/
theorem value_lt_coarsest (I : Interval) : I.value < 10 ^ I.coarsest := by
  let n := I.value.log2 + 1
  have hlog : I.value < 2 ^ n := Nat.lt_log2_self
  have htens : 2 ^ n ≤ 10 ^ I.coarsest := by
    have hbase : 2 ^ 100000 ≤ 10 ^ 30103 := by decide +kernel
    have hexp : 30103 * n ≤ 100000 * I.coarsest := by
      rw [coarsest]
      omega
    apply (Nat.pow_le_pow_iff_left (n := 100000) (by decide)).mp
    calc (2 ^ n) ^ 100000
      _ = (2 ^ 100000) ^ n := by rw [← Nat.pow_mul, ← Nat.pow_mul, Nat.mul_comm]
      _ ≤ (10 ^ 30103) ^ n := Nat.pow_le_pow_left hbase n
      _ = 10 ^ (30103 * n) := by rw [← Nat.pow_mul]
      _ ≤ 10 ^ (100000 * I.coarsest) := Nat.pow_le_pow_right (by decide) hexp
      _ = (10 ^ I.coarsest) ^ 100000 := by rw [← Nat.pow_mul, Nat.mul_comm]
  exact Nat.lt_of_lt_of_le hlog htens

/-- Only of a closed interval is a bound a point. -/
theorem bounds_of_open {x : Nat} (h : I.contains x = true) (hopen : I.closed = false) :
    I.below < x ∧ x < I.above := by
  simpa [contains, hopen] using h

/-! ## The interval of a magnitude -/

section

variable (F : Format) {m : Nat}

/-- Quarters of a place of the significand, in quarter steps. -/
def place (F : Format) (m : Nat) : Nat := 2 ^ F.shift m * 5 ^ F.scale

theorem place_pos (m : Nat) : 0 < place F m :=
  Nat.mul_pos (Nat.pow_pos (by decide)) (Nat.pow_pos (by decide))

theorem value_ofMagnitude (m : Nat) :
    (ofMagnitude F m).value = 4 * (F.significand m * place F m) := Nat.mul_assoc _ _ _

theorem above_ofMagnitude (m : Nat) :
    (ofMagnitude F m).above = 4 * (F.significand m * place F m) + 2 * place F m := by
  change (4 * F.significand m + 2) * place F m = _
  ring

/-- The interval goes down from the value by a quarter of a place at least, and half a place at
most. -/
theorem below_ofMagnitude (hm : 0 < m) :
    (ofMagnitude F m).below + place F m ≤ 4 * (F.significand m * place F m) ∧
      4 * (F.significand m * place F m) ≤ (ofMagnitude F m).below + 2 * place F m ∧
      2 * place F m ≤ (ofMagnitude F m).below := by
  have hsig : 0 < F.significand m := F.significand_pos hm
  let narrow := if F.significand m == F.fractions && 0 < F.shift m then 1 else 2
  have hnarrow : narrow = 1 ∨ narrow = 2 := by
    simp only [narrow]
    split
    · exact .inl rfl
    · exact .inr rfl
  have hbelow : (ofMagnitude F m).below = (4 * F.significand m - narrow) * place F m := rfl
  obtain ⟨k, hk⟩ : ∃ k, 4 * F.significand m = k + 4 := ⟨4 * F.significand m - 4, by omega⟩
  have hvalue : 4 * (F.significand m * place F m) = k * place F m + 4 * place F m := by
    rw [← Nat.mul_assoc, hk, Nat.add_mul]
  rw [hbelow, hvalue, hk]
  rcases hnarrow with h | h <;> rw [h]
  · rw [show k + 4 - 1 = k + 3 by omega, Nat.add_mul]
    omega
  · rw [show k + 4 - 2 = k + 2 by omega, Nat.add_mul]
    omega

/-- Below a power of two the interval goes down by a quarter of a place only. -/
theorem below_ofMagnitude_narrow (hsig : F.significand m = F.fractions) (hshift : 0 < F.shift m) :
    (ofMagnitude F m).below + place F m = 4 * (F.significand m * place F m) := by
  have hpos := F.fractions_pos
  have hbelow : (ofMagnitude F m).below = (4 * F.significand m - 1) * place F m := by
    simp [ofMagnitude, hsig, hshift, place]
  rw [hbelow, ← Nat.succ_mul, ← Nat.mul_assoc]
  congr 1
  omega

/-- A point of the interval as a quotient of units, with the places of the significand dropped from
it. -/
theorem quotient_of_contains {num den x : Nat} (hden : 0 < den) (hm : 0 < m)
    (hx : (ofMagnitude F m).contains x = true) (hnum : num * (4 * 5 ^ F.scale) = x * den) {A : Nat}
    (hA : A = den * 2 ^ F.shift m) :
    2 * (F.significand m * A) ≤ 2 * num + A ∧ 2 * num ≤ 2 * (F.significand m * A) + A ∧
      (F.significand m % 2 = 1 →
        2 * (F.significand m * A) < 2 * num + A ∧ 2 * num < 2 * (F.significand m * A) + A) ∧
      (F.significand m = F.fractions → 0 < F.shift m → 4 * (F.significand m * A) ≤ 4 * num + A) := by
  have hfive : 0 < 5 ^ F.scale := Nat.pow_pos (by decide)
  have hscale (k : Nat) : k * place F m * den = k * A * 5 ^ F.scale := by
    rw [hA, place]
    ring
  have hpoint : x * den = 4 * num * 5 ^ F.scale := by
    rw [← hnum]
    ring
  have hsum (l : Nat) : (x + l * place F m) * den = (4 * num + l * A) * 5 ^ F.scale := by
    rw [Nat.add_mul, hpoint, hscale]
    ring
  -- A bound on the point, counted in places, is a bound on the quotient.
  have hlow (k l : Nat) : k * place F m ≤ x + l * place F m ↔ k * A ≤ 4 * num + l * A := by
    rw [← Nat.mul_le_mul_right_iff hden, hscale, hsum, Nat.mul_le_mul_right_iff hfive]
  have hhigh (k l : Nat) : x + l * place F m ≤ k * place F m ↔ 4 * num + l * A ≤ k * A := by
    rw [← Nat.mul_le_mul_right_iff hden, hscale, hsum, Nat.mul_le_mul_right_iff hfive]
  have hcoeff (k B : Nat) : (4 * k + 2) * B = 4 * (k * B) + 2 * B := by ring
  have hcoeff' (k B : Nat) : 4 * k * B = 4 * (k * B) := Nat.mul_assoc 4 k B
  have habove := above_ofMagnitude F m
  obtain ⟨-, hbelow, -⟩ := below_ofMagnitude F hm
  obtain ⟨hpoint_low, hpoint_high⟩ := contains_bounds hx
  have hhalf_low := hlow (4 * F.significand m) 2
  have hhalf_high := hhigh (4 * F.significand m + 2) 0
  have hover := hhigh (4 * F.significand m) 2
  have hunder := hlow (4 * F.significand m + 2) 0
  have hquarter := hlow (4 * F.significand m) 1
  rw [hcoeff', hcoeff'] at hhalf_low hover hquarter
  rw [hcoeff, hcoeff] at hhalf_high hunder
  refine ⟨by omega, by omega, ?_, ?_⟩
  · intro hodd
    have hopen : (ofMagnitude F m).closed = false := by simp [ofMagnitude, hodd]
    have := bounds_of_open hx hopen
    omega
  · intro hsig hshift
    have := below_ofMagnitude_narrow F hsig hshift
    omega

/-- Whatever lies in the interval of a finite magnitude is rounded to it. -/
theorem round_of_contains {num den x : Nat} (hden : 0 < den) (hm : 0 < m) (hm' : m ≤ F.infinity)
    (hx : (ofMagnitude F m).contains x = true) (hnum : num * (4 * 5 ^ F.scale) = x * den) :
    F.round num den = m := by
  have hf := F.fractions_pos
  have hsig := F.significand_lt m
  have hsum := F.shift_mul_add_significand m
  obtain ⟨hlow, hhigh, hodd, hnarrow⟩ := quotient_of_contains F hden hm hx hnum rfl
  have hA : 0 < den * 2 ^ F.shift m := Nat.mul_pos hden (Nat.pow_pos (by decide))
  have hunder : num < den * 2 ^ F.shift m * (2 * F.fractions) := by
    have hle : F.significand m * (den * 2 ^ F.shift m) + den * 2 ^ F.shift m ≤
        den * 2 ^ F.shift m * (2 * F.fractions) := by
      rw [← Nat.succ_mul, Nat.mul_comm]
      exact Nat.mul_le_mul_left _ hsig
    omega
  by_cases hfull : F.shift m = 0 ∨ den * 2 ^ F.shift m * F.fractions ≤ num
  · rw [Format.round_eq, Format.places_eq hden hfull hunder, Format.roundDiv_eq hA hlow hhigh hodd,
      hsum, Nat.min_eq_left hm']
  · -- The point lies below the power of two that the number is, where one place less is dropped.
    rw [not_or] at hfull
    obtain ⟨s, hs⟩ : ∃ s, F.shift m = s + 1 := ⟨F.shift m - 1, by omega⟩
    have hB : 0 < den * 2 ^ s := Nat.mul_pos hden (Nat.pow_pos (by decide))
    have hhalf : den * 2 ^ F.shift m = 2 * (den * 2 ^ s) := by
      rw [hs, Nat.pow_succ]
      ring
    generalize den * 2 ^ F.shift m = A at *
    have hleast : F.significand m = F.fractions := by
      have hle := (F.shift_eq_zero_or_le m).resolve_left hfull.1
      rcases Nat.lt_or_eq_of_le hle with hlt | heq
      · have hmul : (F.fractions + 1) * A ≤ F.significand m * A := Nat.mul_le_mul_right A hlt
        rw [Nat.succ_mul, Nat.mul_comm] at hmul
        omega
      · exact heq.symm
    have hquarter := hnarrow hleast (by omega)
    have hmul : F.fractions * A = 2 * (den * 2 ^ s * F.fractions) := by
      rw [hhalf]
      ring
    rw [hleast, hmul] at hquarter
    rw [Nat.mul_comm A, hmul] at hfull
    have hf' : den * 2 ^ s ≤ den * 2 ^ s * F.fractions := Nat.le_mul_of_pos_right _ hf
    have hdouble : 2 * F.fractions * (den * 2 ^ s) = 2 * (den * 2 ^ s * F.fractions) := by ring
    have hplaces : F.places num den = s :=
      Format.places_eq hden (.inr (by omega)) (by rw [Nat.mul_left_comm]; omega)
    have hround : Format.roundDiv num (den * 2 ^ s) = 2 * F.fractions :=
      Format.roundDiv_eq hB (by omega) (by omega) (by omega)
    rw [Format.round_eq, hplaces, hround]
    rw [hs, hleast, Nat.succ_mul] at hsum
    omega

/-- A point of the interval lies between the neighbours of the number, and at least half a unit above
zero. -/
theorem between_of_contains {y : Nat} (hm : 0 < m) (hy : (ofMagnitude F m).contains (4 * y) = true) :
    5 ^ F.scale ≤ 2 * y ∧ F.units (m - 1) * 5 ^ F.scale ≤ y ∧
      y ≤ F.units (m + 1) * 5 ^ F.scale := by
  have habove := above_ofMagnitude F m
  obtain ⟨-, hhalf, hbelow⟩ := below_ofMagnitude F hm
  obtain ⟨hlow, hhigh⟩ := contains_bounds hy
  have hfive : 5 ^ F.scale ≤ place F m := Nat.le_mul_of_pos_left _ (Nat.pow_pos (by decide))
  have hsucc (n : Nat) : F.units (n + 1) * 5 ^ F.scale = F.units n * 5 ^ F.scale + place F n := by
    rw [F.units_succ, Nat.add_mul]
    rfl
  have hunits : F.units m * 5 ^ F.scale = F.significand m * place F m := Nat.mul_assoc _ _ _
  have hnext := hsucc m
  obtain ⟨n, rfl⟩ : ∃ n, m = n + 1 := ⟨m - 1, by omega⟩
  have hprevious := hsucc n
  have hshift : place F (n + 1) ≤ 2 * place F n := by
    have hpow : 2 ^ F.shift (n + 1) ≤ 2 ^ F.shift n * 2 := by
      rw [← Nat.pow_succ]
      exact Nat.pow_le_pow_right (by decide) (F.shift_succ_le n)
    calc place F (n + 1)
      _ ≤ 2 ^ F.shift n * 2 * 5 ^ F.scale := Nat.mul_le_mul_right _ hpow
      _ = 2 * place F n := by rw [place]; ring
  rw [Nat.add_sub_cancel]
  omega

end

end Interval

namespace Format

variable (F : Format) (tie : Tie) {m : Nat}

/-- The shortest decimal is a point of some grid in the interval of the number, and the grid is not
much finer than the interval. -/
theorem exists_shortest (hm : 0 < m) : ∃ p j : Nat, F.shortest tie m = ⟨p, (j : Int) - F.scale⟩ ∧
    (ofMagnitude F m).contains (4 * (p * 10 ^ j)) = true ∧
    3 * p ≤ 10 * (4 * F.significand m + 2) := by
  rcases h : (ofMagnitude F m).search tie (ofMagnitude F m).coarsest with ⟨p, j⟩
  have hplace := place_pos F m
  have hvalue := value_ofMagnitude F m
  have habove := above_ofMagnitude F m
  obtain ⟨hquarter, -, hbelow⟩ := below_ofMagnitude F hm
  obtain ⟨hcontains, hgrid⟩ := search_spec tie (ofMagnitude F m).coarsest (by omega) (by omega)
    ⟨_, hvalue⟩
  simp only [h] at hcontains hgrid
  rw [Nat.mul_left_comm] at hcontains
  refine ⟨p, j, by rw [shortest, h], hcontains, ?_⟩
  obtain ⟨hlow, hhigh⟩ := contains_bounds hcontains
  rcases hgrid with hcoarsest | hgrid
  · -- The first grid of all is too coarse for any point but zero.
    have hlt := value_lt_coarsest (ofMagnitude F m)
    have hpos : 0 < p := Nat.pos_of_ne_zero (by rintro rfl; omega)
    have hle : 10 ^ j ≤ p * 10 ^ j := Nat.le_mul_of_pos_left _ hpos
    rw [← hcoarsest] at hlt
    omega
  · have hwidth : 3 * place F m ≤ 10 * (4 * 10 ^ j) := by
      have : 4 * 10 ^ (j + 1) = 10 * (4 * 10 ^ j) := by rw [Nat.pow_succ]; ring
      omega
    have hstep : 0 < 4 * 10 ^ j := Nat.mul_pos (by decide) (Nat.pow_pos (by decide))
    refine Nat.le_of_mul_le_mul_right ?_ hstep
    calc 3 * p * (4 * 10 ^ j)
      _ = 3 * (4 * (p * 10 ^ j)) := by ring
      _ ≤ 3 * ((4 * F.significand m + 2) * place F m) := by
        rw [Nat.add_mul, Nat.mul_assoc]
        omega
      _ = (4 * F.significand m + 2) * (3 * place F m) := by ring
      _ ≤ (4 * F.significand m + 2) * (10 * (4 * 10 ^ j)) := Nat.mul_le_mul_left _ hwidth
      _ = 10 * (4 * F.significand m + 2) * (4 * 10 ^ j) := by ring

theorem shortest_digits_pos (hm : 0 < m) : 0 < (F.shortest tie m).digits := by
  obtain ⟨p, j, h, hcontains, -⟩ := F.exists_shortest tie hm
  have hfive : 0 < 5 ^ F.scale := Nat.pow_pos (by decide)
  have hlow := (between_of_contains F hm hcontains).1
  rw [h]
  refine Nat.pos_of_ne_zero ?_
  rintro rfl
  omega

theorem shortest_digits_le (hm : 0 < m) :
    3 * (F.shortest tie m).digits ≤ 10 * (4 * F.significand m + 2) := by
  obtain ⟨p, j, h, -, hle⟩ := F.exists_shortest tie hm
  rw [h]
  exact hle

end Format

/-- The value of a decimal. -/
def Decimal.value (d : Decimal) : ℚ := d.digits * 10 ^ d.exponent

theorem Format.ten_pow_scale (F : Format) : (10 : ℚ) ^ F.scale = 5 ^ F.scale * F.one := by
  rw [Format.one_eq]
  push_cast
  rw [← mul_pow]
  norm_num

theorem Decimal.value_grid (F : Format) (p j : Nat) :
    Decimal.value ⟨p, (j : Int) - F.scale⟩ = (p * 10 ^ j : Nat) / (5 ^ F.scale * F.one) := by
  rw [Decimal.value, zpow_sub₀ (by norm_num), zpow_natCast, zpow_natCast, F.ten_pow_scale,
    mul_div_assoc']
  push_cast
  rfl

/-- The shortest decimal of a number lies between the neighbours of the number. -/
theorem Format.shortest_between (F : Format) (tie : Tie) {m : Nat} (hm : 0 < m) :
    F.value (m - 1) ≤ (F.shortest tie m).value ∧ (F.shortest tie m).value ≤ F.value (m + 1) := by
  obtain ⟨p, j, h, hcontains, -⟩ := F.exists_shortest tie hm
  obtain ⟨-, hlow, hhigh⟩ := between_of_contains F hm hcontains
  have hone := F.one_pos_rat
  have hfive : (0 : ℚ) < 5 ^ F.scale := by positivity
  rw [h, Decimal.value_grid, Format.value, Format.value]
  constructor
  · rw [div_le_div_iff₀ hone (by positivity), ← mul_assoc, mul_le_mul_iff_left₀ hone]
    exact_mod_cast hlow
  · rw [div_le_div_iff₀ (by positivity) hone, ← mul_assoc, mul_le_mul_iff_left₀ hone]
    exact_mod_cast hhigh

/-- Rounding the shortest decimal of a number gives the number. -/
theorem Format.round_shortest (F : Format) (tie : Tie) {m num den : Nat} (hm : 0 < m)
    (hm' : m ≤ F.infinity) (hden : 0 < den)
    (h : (num : ℚ) / (den * F.one) = (F.shortest tie m).value) : F.round num den = m := by
  obtain ⟨p, j, hshortest, hcontains, -⟩ := F.exists_shortest tie hm
  refine round_of_contains F hden hm hm' hcontains ?_
  have hone := F.one_pos_rat
  have hfive : (0 : ℚ) < 5 ^ F.scale := by positivity
  have hden' : (0 : ℚ) < den := by exact_mod_cast hden
  rw [hshortest, Decimal.value_grid, div_eq_div_iff (by positivity) (by positivity), ← mul_assoc,
    ← mul_assoc, mul_left_inj' hone.ne'] at h
  have hcross : num * 5 ^ F.scale = p * 10 ^ j * den := by exact_mod_cast h
  calc num * (4 * 5 ^ F.scale)
    _ = 4 * (num * 5 ^ F.scale) := by ring
    _ = 4 * (p * 10 ^ j) * den := by rw [hcross, ← Nat.mul_assoc]

end SyntaxForest.Numeric
