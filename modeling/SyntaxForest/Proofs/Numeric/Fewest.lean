import SyntaxForest.Proofs.Numeric.Shortest

/-!
# No decimal is shorter

The shortest decimal of a number is rounded to the number, and no decimal with fewer digits is
(`Format.isShortest_shortest`). What is rounded to a number lies in the interval of the number, and
the search meets the grids from coarse to fine: a decimal with fewer digits would put a point of a
coarser grid into the interval, either itself or a power of ten between it and the shortest one.
-/

namespace SyntaxForest.Numeric

open SyntaxForest.Numeric.Interval

/-! ## Points of an interval -/

namespace Interval

variable {I : Interval}

/-- Whether a point lies in the interval that need not be a whole number of quarter steps. -/
def Holds (I : Interval) (x : ℚ) : Prop :=
  if I.closed then I.below ≤ x ∧ x ≤ I.above else I.below < x ∧ x < I.above

theorem contains_iff_holds {x : Nat} : I.contains x = true ↔ I.Holds x := by
  rw [contains, Holds]
  split <;> simp

theorem Holds.between {x y z : ℚ} (hx : I.Holds x) (hz : I.Holds z) (hxy : x ≤ y) (hyz : y ≤ z) :
    I.Holds y := by
  rw [Holds] at hx hz ⊢
  split at hx
  · rw [if_pos ‹_›] at hz ⊢
    exact ⟨hx.1.trans hxy, hyz.trans hz.2⟩
  · rw [if_neg ‹_›] at hz ⊢
    exact ⟨hx.1.trans_le hxy, hyz.trans_lt hz.2⟩

theorem contains_between {x y z : Nat} (hx : I.contains x = true) (hz : I.contains z = true)
    (hxy : x ≤ y) (hyz : y ≤ z) : I.contains y = true := by
  rw [contains_iff_holds] at hx hz ⊢
  exact hx.between hz (by exact_mod_cast hxy) (by exact_mod_cast hyz)

/-- A grid with a point in the interval has a neighbour of the value there. -/
theorem neighbour?_ne_none {tie : Tie} {j k : Nat} (hvalue : I.contains I.value = true)
    (h : I.contains (k * (4 * 10 ^ j)) = true) : I.neighbour? tie j ≠ none := by
  have hgrid : 0 < 4 * 10 ^ j := Nat.mul_pos (by decide) (Nat.pow_pos (by decide))
  have hle := Nat.div_mul_le_self I.value (4 * 10 ^ j)
  have hlt := Nat.lt_div_mul_add (a := I.value) hgrid
  rw [← Nat.succ_mul] at hlt
  have hside : I.contains (I.value / (4 * 10 ^ j) * (4 * 10 ^ j)) = true ∨
      I.contains ((I.value / (4 * 10 ^ j) + 1) * (4 * 10 ^ j)) = true := by
    rcases Nat.lt_or_ge (I.value / (4 * 10 ^ j)) k with hk | hk
    · exact .inr (contains_between hvalue h hlt.le (Nat.mul_le_mul_right _ hk))
    · exact .inl (contains_between h hvalue (Nat.mul_le_mul_right _ hk) hle)
  intro hnone
  simp only [neighbour?] at hnone
  split at hnone
  · next hdown hup =>
    simp only [show Nat.pow 10 j = 10 ^ j from rfl] at hdown hup
    rw [hdown, hup] at hside
    simp at hside
  · cases hnone
  · cases hnone
  · split at hnone
    · cases hnone
    · split at hnone
      · cases hnone
      · split at hnone <;> cases hnone

/-- The search has found nothing on the grids before the one where it ends. -/
theorem neighbour?_of_search {tie : Tie} {c i : Nat} (hi : (I.search tie c).2 < i) (hic : i ≤ c) :
    I.neighbour? tie i = none := by
  induction c with
  | zero => omega
  | succ c ih =>
    rw [search] at hi
    split at hi
    · simp only at hi
      omega
    · next hnone =>
      rcases Nat.lt_or_eq_of_le hic with hlt | rfl
      · exact ih hi (by omega)
      · exact hnone

/-- Where the interval has a point with at least `D` digits behind its first one, and a decimal with
at most `D` digits, it has a point of a coarser grid: the power of ten between the two, or the
decimal itself. -/
theorem exists_coarser {q a b p j D : Nat} (hq : 0 < q) (hqD : q < 10 ^ D) (hp : 10 ^ D ≤ p)
    (hdecimal : I.Holds ((4 * (q * 10 ^ a) : Nat) / (10 ^ b : Nat)))
    (hpoint : I.contains (4 * (p * 10 ^ j)) = true) :
    ∃ k i, 0 < k ∧ j < i ∧ I.contains (k * (4 * 10 ^ i)) = true := by
  have hD : D ≠ 0 := by
    rintro rfl
    omega
  have hb : (0 : ℚ) < (10 ^ b : Nat) := by positivity
  rcases Nat.lt_or_ge (10 ^ (D + j) * 10 ^ b) (q * 10 ^ a) with habove | hbelow
  · have hlt : D + j + b < D + a := by
      refine (Nat.pow_lt_pow_iff_right (a := 10) (by decide)).mp ?_
      calc 10 ^ (D + j + b)
        _ = 10 ^ (D + j) * 10 ^ b := Nat.pow_add ..
        _ < q * 10 ^ a := habove
        _ ≤ 10 ^ D * 10 ^ a := Nat.mul_le_mul_right _ hqD.le
        _ = 10 ^ (D + a) := (Nat.pow_add ..).symm
    refine ⟨q, a - b, hq, by omega, contains_iff_holds.mpr ?_⟩
    have hsplit : 4 * (q * 10 ^ a) = q * (4 * 10 ^ (a - b)) * 10 ^ b := by
      rw [Nat.mul_assoc, Nat.mul_assoc, ← Nat.pow_add, Nat.sub_add_cancel (by omega),
        Nat.mul_left_comm]
    rw [hsplit, Nat.cast_mul, mul_div_cancel_right₀ _ hb.ne'] at hdecimal
    exact hdecimal
  · refine ⟨1, D + j, Nat.one_pos, by omega, contains_iff_holds.mpr ?_⟩
    refine hdecimal.between (contains_iff_holds.mp hpoint) ?_ ?_
    · rw [div_le_iff₀ hb, ← Nat.cast_mul, Nat.cast_le]
      calc 4 * (q * 10 ^ a)
        _ ≤ 4 * (10 ^ (D + j) * 10 ^ b) := Nat.mul_le_mul_left _ hbelow
        _ = 1 * (4 * 10 ^ (D + j)) * 10 ^ b := by ring
    · rw [Nat.cast_le, Nat.one_mul, Nat.pow_add]
      exact Nat.mul_le_mul_left _ (Nat.mul_le_mul_right _ hp)

section

variable (F : Format) {m : Nat}

theorem not_holds_zero (hm : 0 < m) : ¬ (ofMagnitude F m).Holds 0 := by
  have hplace := place_pos F m
  have hbelow := (below_ofMagnitude F hm).2.2
  intro h
  have hzero : (ofMagnitude F m).contains 0 = true := contains_iff_holds.mpr (by exact_mod_cast h)
  have hle := (contains_bounds hzero).1
  omega

/-- No point of a coarser grid than the one where the search ends lies in the interval. -/
theorem not_contains_coarser {tie : Tie} (hm : 0 < m) {k i : Nat} (hk : 0 < k)
    (hi : ((ofMagnitude F m).search tie (ofMagnitude F m).coarsest).2 < i) :
    (ofMagnitude F m).contains (k * (4 * 10 ^ i)) = false := by
  have hplace := place_pos F m
  have hvalue := value_ofMagnitude F m
  have habove := above_ofMagnitude F m
  obtain ⟨hquarter, -, hbelow⟩ := below_ofMagnitude F hm
  rw [Bool.eq_false_iff]
  intro hcontains
  rcases Nat.lt_or_ge (ofMagnitude F m).coarsest i with hcoarse | hfine
  · -- The first grid of all is coarser than the value, and the interval is not twice as long.
    have hlt := value_lt_coarsest (ofMagnitude F m)
    have hpow : 10 ^ (ofMagnitude F m).coarsest ≤ 10 ^ i :=
      Nat.pow_le_pow_right (by decide) hcoarse.le
    have hpoint : 4 * 10 ^ i ≤ k * (4 * 10 ^ i) := Nat.le_mul_of_pos_left _ hk
    have hhigh := (contains_bounds hcontains).2
    omega
  · have hinside : (ofMagnitude F m).contains (ofMagnitude F m).value = true :=
      contains_value (by omega) (by omega)
    exact neighbour?_ne_none hinside hcontains (neighbour?_of_search hi hfine)

end

end Interval

/-! ## What is rounded to a number -/

namespace Format

variable (F : Format)

/-- A full significand, or one with no place dropped behind it, is the significand of its
magnitude. -/
theorem shift_significand {p s : Nat} (hlow : p = 0 ∨ F.fractions ≤ s)
    (hhigh : s < 2 * F.fractions) :
    F.shift (p * F.fractions + s) = p ∧ F.significand (p * F.fractions + s) = s := by
  have hpos := F.fractions_pos
  rcases Nat.lt_or_ge s F.fractions with hlt | hge
  · obtain rfl : p = 0 := hlow.resolve_right (by omega)
    rw [Nat.zero_mul, Nat.zero_add, shift, significand, if_pos hlt, Nat.div_eq_of_lt hlt]
    exact ⟨rfl, rfl⟩
  · obtain ⟨r, rfl⟩ : ∃ r, s = F.fractions + r := ⟨s - F.fractions, by omega⟩
    have hsplit : p * F.fractions + (F.fractions + r) = F.fractions * (p + 1) + r := by ring
    rw [shift, significand, if_neg (by omega), hsplit, Nat.mul_add_div hpos,
      Nat.div_eq_of_lt (by omega), Nat.mul_add_mod, Nat.mod_eq_of_lt (by omega)]
    exact ⟨by omega, rfl⟩

/-- Halfway between two whole numbers the even one is taken. -/
theorem roundDiv_odd {num den : Nat} (hden : 0 < den) (h : roundDiv num den % 2 = 1) :
    2 * num < 2 * (roundDiv num den * den) + den ∧
      2 * (roundDiv num den * den) < 2 * num + den := by
  have hsplit := Nat.div_add_mod num den
  have hrest := Nat.mod_lt num hden
  rw [Nat.mul_comm] at hsplit
  rw [roundDiv] at h ⊢
  split at h
  · rw [if_pos ‹_›]
    omega
  · rw [if_neg ‹_›]
    split at h
    · rw [if_pos ‹_›, Nat.add_mul, Nat.one_mul]
      omega
    · omega

variable {F}

/-- The interval of a magnitude, met by a quotient of units with the places of the significand
dropped from it. -/
theorem holds_quotient {num den m A : Nat} (hden : 0 < den) (hm : 0 < m)
    (hA : A = den * 2 ^ F.shift m)
    (hlow : 4 * (F.significand m * A) ≤
      4 * num + (if F.significand m = F.fractions ∧ 0 < F.shift m then 1 else 2) * A)
    (hhigh : 4 * num ≤ 4 * (F.significand m * A) + 2 * A)
    (hodd : F.significand m % 2 = 1 → 4 * (F.significand m * A) <
        4 * num + (if F.significand m = F.fractions ∧ 0 < F.shift m then 1 else 2) * A ∧
      4 * num < 4 * (F.significand m * A) + 2 * A) :
    (ofMagnitude F m).Holds (num * (4 * 5 ^ F.scale) / den) := by
  have hsig : 0 < F.significand m := F.significand_pos hm
  have hd : (0 : ℚ) < den := by exact_mod_cast hden
  have hfive : (0 : ℚ) < 5 ^ F.scale := by positivity
  have hscale (k : Nat) : ((k * place F m : Nat) : ℚ) * den = (k * A : Nat) * 5 ^ F.scale := by
    rw [hA, place]
    push_cast
    ring
  -- A bound that counts places is a bound on the quotient.
  have hle (k : Nat) : ((k * place F m : Nat) : ℚ) ≤ num * (4 * 5 ^ F.scale) / den ↔
      k * A ≤ 4 * num := by
    rw [le_div_iff₀ hd, hscale, ← mul_assoc, mul_le_mul_iff_left₀ hfive, mul_comm (num : ℚ)]
    exact_mod_cast Iff.rfl
  have hge (k : Nat) : num * (4 * 5 ^ F.scale) / den ≤ ((k * place F m : Nat) : ℚ) ↔
      4 * num ≤ k * A := by
    rw [div_le_iff₀ hd, hscale, ← mul_assoc, mul_le_mul_iff_left₀ hfive, mul_comm (num : ℚ)]
    exact_mod_cast Iff.rfl
  generalize hw : (if F.significand m = F.fractions ∧ 0 < F.shift m then 1 else 2) = w at hlow hodd
  have hw' : w ≤ 2 := by
    rw [← hw]
    split <;> decide
  have hbelow : (ofMagnitude F m).below = (4 * F.significand m - w) * place F m := by
    simp only [ofMagnitude, place, ← hw]
    simp
  have habove : (ofMagnitude F m).above = (4 * F.significand m + 2) * place F m := rfl
  have hsub : (4 * F.significand m - w) * A + w * A = 4 * (F.significand m * A) := by
    rw [← Nat.add_mul, Nat.sub_add_cancel (by omega), Nat.mul_assoc]
  have hadd : (4 * F.significand m + 2) * A = 4 * (F.significand m * A) + 2 * A := by ring
  rw [Holds, hbelow, habove]
  split
  · rw [hle, hge]
    omega
  · next hopen =>
    have hodd := hodd (by simpa [ofMagnitude] using hopen)
    rw [← not_le, ← not_le, hle, hge]
    omega

/-- What is rounded to a finite magnitude lies in its interval. A format without fractions would
round a tie below a power of two up, although it leaves the bound out. -/
theorem holds_of_round {num den m : Nat} (hfractions : F.fractions % 2 = 0) (hden : 0 < den)
    (hm : 0 < m) (hm' : m < F.infinity) (h : F.round num den = m) :
    (ofMagnitude F m).Holds (num * (4 * 5 ^ F.scale) / den) := by
  let p := F.places num den
  let A := den * 2 ^ p
  let s := roundDiv num A
  have hA : 0 < A := Nat.mul_pos hden (Nat.pow_pos (by decide))
  have hm_eq : m = p * F.fractions + s := by
    rw [round_eq] at h
    show m = F.places num den * F.fractions + roundDiv num (den * 2 ^ F.places num den)
    omega
  obtain ⟨hover, hunder⟩ := roundDiv_half num hA
  have hodd : s % 2 = 1 → _ := roundDiv_odd hA
  have hnum : num ≤ A * (2 * F.fractions) := F.num_le_of_places num hden
  have hfull : 0 < p → A * F.fractions ≤ num := le_num_of_places
  have hs : s ≤ 2 * F.fractions := roundDiv_le_of_le_mul hA hnum
  change 2 * num ≤ 2 * (s * A) + A at hover
  change 2 * (s * A) ≤ 2 * num + A at hunder
  rcases Nat.lt_or_eq_of_le hs with hlt | heq
  · have hlow : p = 0 ∨ F.fractions ≤ s := by
      rcases Nat.eq_zero_or_pos p with hp | hp
      · exact .inl hp
      · exact .inr (le_roundDiv_of_mul_le hA (hfull hp))
    obtain ⟨hshift, hsig⟩ := F.shift_significand hlow hlt
    rw [← hm_eq] at hshift hsig
    refine holds_quotient (A := A) hden hm (by rw [hshift]) ?_ ?_ ?_ <;> rw [hsig]
    · split
      · next hnarrow =>
        have hle : s * A ≤ num := by
          rw [hnarrow.1, Nat.mul_comm]
          exact hfull (hshift ▸ hnarrow.2)
        omega
      · omega
    · omega
    · intro hone
      obtain ⟨hover, hunder⟩ := hodd hone
      change 2 * num < 2 * (s * A) + A at hover
      change 2 * (s * A) < 2 * num + A at hunder
      split
      · next hnarrow => omega
      · omega
  · -- The significand was rounded up to the next power of two.
    have hcarry : m = (p + 1) * F.fractions + F.fractions := by
      rw [hm_eq, heq]
      ring
    have hpos := F.fractions_pos
    obtain ⟨hshift, hsig⟩ := F.shift_significand (p := p + 1) (.inr (Nat.le_refl _)) (by omega)
    rw [← hcarry] at hshift hsig
    have hdouble : F.fractions * (2 * A) = s * A := by
      rw [heq]
      ring
    refine holds_quotient (A := 2 * A) hden hm (by rw [hshift, Nat.pow_succ]; ring) ?_ ?_ ?_ <;>
      rw [hsig, hdouble]
    · rw [if_pos ⟨rfl, by omega⟩]
      omega
    · omega
    · omega

end Format

/-! ## Decimals -/

namespace Decimal

/-- The magnitude of a format that is nearest to a decimal. -/
def round (d : Decimal) (F : Format) : Nat :=
  F.round (d.digits * 10 ^ d.exponent.toNat * F.one) (10 ^ (-d.exponent).toNat)

/-- How many digits a decimal has. -/
def length (d : Decimal) : Nat := (Nat.toDigits 10 d.digits).length

/-- A decimal that is rounded to a magnitude, as no decimal with fewer digits is. -/
structure IsShortest (d : Decimal) (F : Format) (m : Nat) : Prop where
  round_eq : d.round F = m
  length_le : ∀ d' : Decimal, d'.round F = m → d.length ≤ d'.length

theorem value_eq (d : Decimal) :
    d.value = (d.digits * 10 ^ d.exponent.toNat : Nat) / (10 ^ (-d.exponent).toNat : Nat) := by
  rw [value]
  rcases Int.le_total 0 d.exponent with h | h
  · obtain ⟨k, hk⟩ := Int.eq_ofNat_of_zero_le h
    simp [hk]
  · obtain ⟨k, hk⟩ := Int.exists_eq_neg_ofNat h
    simp [hk, div_eq_mul_inv]

end Decimal

namespace Format

variable (F : Format) (tie : Tie) {m : Nat}

/-- The shortest decimal of a number is rounded to the number. -/
theorem round_shortest_decimal (hm : 0 < m) (hm' : m ≤ F.infinity) :
    (F.shortest tie m).round F = m := by
  refine F.round_shortest tie hm hm' (Nat.pow_pos (by decide)) ?_
  rw [Decimal.value_eq]
  push_cast
  rw [mul_div_mul_right _ _ F.one_pos_rat.ne']

variable {F}

/-- What a decimal is in steps of the finest grid that the search meets, as a fraction of powers of
ten, where it is rounded to the number. -/
theorem holds_of_round_decimal {d : Decimal} (hfractions : F.fractions % 2 = 0) (hm : 0 < m)
    (hm' : m < F.infinity) (h : d.round F = m) :
    (ofMagnitude F m).Holds
      ((4 * (d.digits * 10 ^ (d.exponent.toNat + F.scale)) : Nat) /
        (10 ^ (-d.exponent).toNat : Nat)) := by
  have hholds := holds_of_round hfractions (Nat.pow_pos (by decide)) hm hm' h
  convert hholds using 2
  push_cast
  rw [pow_add, F.ten_pow_scale]
  ring

/-- No decimal that is rounded to a number has fewer digits than the shortest decimal of the
number. -/
theorem shortest_length_le {d : Decimal} (hfractions : F.fractions % 2 = 0) (hm : 0 < m)
    (hm' : m < F.infinity) (h : d.round F = m) : (F.shortest tie m).length ≤ d.length := by
  obtain ⟨p, j, hshortest, hpoint, -⟩ := F.exists_shortest tie hm
  have hholds := holds_of_round_decimal hfractions hm hm' h
  have hj : ((ofMagnitude F m).search tie (ofMagnitude F m).coarsest).2 = j := by
    rw [shortest, Decimal.mk.injEq] at hshortest
    omega
  have hq : 0 < d.digits := by
    refine Nat.pos_of_ne_zero fun hzero => ?_
    rw [hzero, Nat.zero_mul, Nat.mul_zero, Nat.cast_zero, zero_div] at hholds
    exact not_holds_zero F hm hholds
  have hD : 0 < d.length := List.length_pos_iff.mpr Nat.toDigits_ne_nil
  have hqD : d.digits < 10 ^ d.length :=
    (Nat.length_toDigits_le_iff (by decide) hD).mp (Nat.le_refl _)
  rw [hshortest]
  refine (Nat.length_toDigits_le_iff (by decide) hD).mpr ?_
  refine Nat.lt_of_not_le fun hp => ?_
  obtain ⟨k, i, hk, hi, hcontains⟩ := exists_coarser hq hqD hp hholds hpoint
  rw [not_contains_coarser F hm hk (by rw [hj]; exact hi)] at hcontains
  cases hcontains

theorem isShortest_shortest (hfractions : F.fractions % 2 = 0) (hm : 0 < m) (hm' : m < F.infinity) :
    (F.shortest tie m).IsShortest F m where
  round_eq := F.round_shortest_decimal tie hm hm'.le
  length_le _ := shortest_length_le tie hfractions hm hm'

end Format

end SyntaxForest.Numeric
