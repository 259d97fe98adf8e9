import SyntaxForest.Proofs.Numeric.Error

/-!
# Wider formats and back

A format is wider than another one when it has as many fractions and units at least as fine, and
reaches as far. Every finite number of the narrow format is then a number of the wide one, so
widening it is exact and narrowing brings it back as it was (`Binary.convert_convert`), whether or
not it has a leading bit in either format. What the wide format has between zero and the largest
number of the narrow one stays finite when it is narrowed.
-/

namespace SyntaxForest.Numeric

namespace Format

variable {F G : Format}

/-- Every finite value of the first format is a finite value of the second. -/
structure Widens (F G : Format) : Prop where
  fractions_le : F.fractions ≤ G.fractions
  scale_le : F.scale ≤ G.scale
  range_le : F.units F.infinity * G.one ≤ G.units G.infinity * F.one

theorem single_widens_double : single.Widens double where
  fractions_le := by decide
  scale_le := by decide
  range_le := by decide +kernel

/-- A significand that fits is the value of a magnitude, however far it is shifted up. -/
theorem exists_units (F : Format) {s : Nat} (hs : s ≤ 2 * F.fractions) (k : Nat) :
    ∃ n, F.units n = s * 2 ^ k := by
  induction k generalizing s with
  | zero =>
    rcases Nat.lt_or_ge s F.fractions with hlt | hge
    · exact ⟨s, by rw [units_of_lt hlt, Nat.pow_zero, Nat.mul_one]⟩
    · exact ⟨0 * F.fractions + s, F.units_full hge hs⟩
  | succ k ih =>
    rcases Nat.lt_or_ge s F.fractions with hlt | hge
    · -- There is room for one place more in the significand, and one less is left to shift.
      obtain ⟨n, hn⟩ := ih (s := 2 * s) (by omega)
      exact ⟨n, by rw [hn, Nat.pow_succ]; ring⟩
    · exact ⟨(k + 1) * F.fractions + s, F.units_full hge hs⟩

/-- A finite magnitude of the narrow format has the value of a finite magnitude of the wide one. -/
theorem Widens.exists_magnitude (h : F.Widens G) {m : Nat} (hm : m < F.infinity) :
    ∃ n < G.infinity, G.units n * F.one = F.units m * G.one := by
  have hone : G.one = 2 ^ (G.scale - F.scale) * F.one := by
    rw [one_eq, one_eq, ← Nat.pow_add, Nat.sub_add_cancel h.scale_le]
  have hsig : F.significand m ≤ 2 * G.fractions := by
    have hlt := F.significand_lt m
    have hle := h.fractions_le
    omega
  obtain ⟨n, hn⟩ := G.exists_units hsig (F.shift m + (G.scale - F.scale))
  have hvalue : G.units n * F.one = F.units m * G.one := by
    rw [hn, hone, Nat.pow_add]
    change _ = F.significand m * 2 ^ F.shift m * _
    ring
  refine ⟨n, ?_, hvalue⟩
  by_contra hge
  have hG : G.units G.infinity * F.one ≤ F.units m * G.one := by
    rw [← hvalue]
    exact Nat.mul_le_mul_right _ (G.units_le (Nat.le_of_not_lt hge))
  have hF : F.units m * G.one < F.units F.infinity * G.one :=
    Nat.mul_lt_mul_of_pos_right (F.units_lt hm) G.one_pos
  have hrange := h.range_le
  omega

end Format

namespace Binary

variable {F G : Format}

theorem convert_negative (G : Format) (x : Binary F) : (x.convert G).negative = x.negative := by
  rw [convert]
  split
  · rfl
  · split <;> rfl

theorem eq_of_magnitude {x y : Binary F} (hnegative : x.negative = y.negative)
    (hmagnitude : x.magnitude = y.magnitude) : x = y := by
  cases x
  cases y
  simp_all

/-- Widening keeps the value of a finite number. -/
theorem units_convert (h : F.Widens G) {x : Binary F} (hx : x.isFinite = true) :
    (x.convert G).isFinite = true ∧
      G.units (x.convert G).magnitude * F.one = F.units x.magnitude * G.one := by
  obtain ⟨n, hn, hvalue⟩ := h.exists_magnitude (isFinite_iff.mp hx)
  have hmagnitude : (x.convert G).magnitude = n := by
    rw [convert_of_isFinite G hx, ← hvalue, G.round_units F.one_pos hn.le]
  rw [isFinite_iff, hmagnitude]
  exact ⟨hn, hvalue⟩

/-- Narrowing a number that was widened gives it back, bit for bit. -/
theorem convert_convert (h : F.Widens G) {x : Binary F} (hx : x.isFinite = true) :
    (x.convert G).convert F = x := by
  obtain ⟨hfinite, hvalue⟩ := units_convert h hx
  apply eq_of_magnitude
  · rw [convert_negative, convert_negative]
  · rw [convert_of_isFinite F hfinite, hvalue,
      F.round_units G.one_pos (isFinite_iff.mp hx).le]

theorem isFinite_largest (F : Format) (hF : 0 < F.infinity) : (largest F).isFinite = true := by
  rw [isFinite_iff]
  exact Nat.sub_lt hF Nat.one_pos

/-- A number up to the largest one of a narrow format stays finite when it is narrowed. -/
theorem isFinite_convert_of_le (h : F.Widens G) (hF : 0 < F.infinity) {x : Binary G}
    (hx : x.isFinite = true)
    (hle : x.magnitude ≤ ((largest F).convert G).magnitude) : (x.convert F).isFinite = true := by
  have hlargest := isFinite_largest F hF
  have hbound := convert_magnitude_le F hx (units_convert h hlargest).1 hle
  rw [convert_convert h hlargest] at hbound
  rw [isFinite_iff] at hlargest ⊢
  exact Nat.lt_of_le_of_lt hbound hlargest

end Binary

end SyntaxForest.Numeric
