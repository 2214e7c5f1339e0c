import RecordQuery.Binary64.Rounding

/-!
# Bounds of rounding

How far rounding can go up, and that every integer of 64 bits is within reach of the finite values.
-/

namespace RecordQuery

theorem nearestEven_le (num den : Nat) : nearestEven num den ≤ num / den + 1 := by
  unfold nearestEven
  dsimp only
  split
  · omega
  · omega
  · have parity : num / den % 2 < 2 := Nat.mod_lt _ (by decide)
    omega

namespace FloatFormat

variable (format : FloatFormat)

/-- A quotient with the bits below its leading ones cut off has one bit more than a fraction. -/
theorem significand_lt (q : Nat) :
    q / Nat.pow 2 (q.log2 - format.fractionBits) < 2 * format.fractions := by
  have bits : q < 2 ^ (q.log2 + 1) := Nat.lt_log2_self
  have wide : q.log2 + 1 ≤ format.fractionBits + 1 + (q.log2 - format.fractionBits) := by omega
  apply Nat.div_lt_of_lt_mul
  calc
    q < 2 ^ (q.log2 + 1) := bits
    _ ≤ 2 ^ (format.fractionBits + 1 + (q.log2 - format.fractionBits)) :=
      Nat.pow_le_pow_right (by decide) wide
    _ = 2 ^ (q.log2 - format.fractionBits) * (2 * 2 ^ format.fractionBits) := by
      rw [Nat.pow_add, Nat.pow_succ, Nat.mul_comm, Nat.mul_comm 2]

/-- Rounding goes no further than to the start of the next binade. -/
theorem nearest_le {num den top : Nat} (size : (num * format.one / den).log2 ≤ top) :
    format.nearest num den ≤
      (top - format.fractionBits) * format.fractions + 2 * format.fractions := by
  have rounded := nearestEven_le (num * format.one)
    (den * Nat.pow 2 ((num * format.one / den).log2 - format.fractionBits))
  have below := format.significand_lt (num * format.one / den)
  rw [← Nat.div_div_eq_div_mul] at rounded
  have exponents : ((num * format.one / den).log2 - format.fractionBits) * format.fractions ≤
      (top - format.fractionBits) * format.fractions := Nat.mul_le_mul_right _ (by omega)
  rw [nearest]
  omega

theorem log2_units_le {n k : Nat} (h : n ≤ Nat.pow 2 k) :
    (n * format.one / 1).log2 ≤ k + format.unitExponent := by
  have scaled : n * format.one < 2 ^ (k + format.unitExponent + 1) := by
    calc
      n * format.one ≤ 2 ^ k * 2 ^ format.unitExponent := Nat.mul_le_mul_right _ h
      _ = 2 ^ (k + format.unitExponent) := (Nat.pow_add ..).symm
      _ < 2 ^ (k + format.unitExponent + 1) := Nat.pow_lt_pow_right (by decide) (by omega)
  rw [Nat.div_one]
  by_cases zero : n * format.one = 0
  · rw [zero, Nat.log2_zero]
    exact Nat.zero_le _
  · exact Nat.le_of_lt_succ ((Nat.log2_lt zero).mpr scaled)

end FloatFormat

namespace Binary64

theorem isFinite_ofMagnitude {negative : Bool} {code : Nat} (h : code < limit) :
    (ofMagnitude negative code).isFinite = true := by
  rw [ofMagnitude, dif_pos h]
  rfl

/-- No integer of 64 bits, with or without a sign, is too large for a float. -/
theorem nearest_lt_limit {n : Nat} (magnitude : n ≤ Nat.pow 2 64) :
    FloatFormat.double.nearest n 1 < limit :=
  Nat.lt_of_le_of_lt (FloatFormat.double.nearest_le (FloatFormat.double.log2_units_le magnitude))
    (by decide)

theorem isFinite_ofInt {n : Int} (range : Text.Numeral.InRange n) :
    (ofInt n).isFinite = true := by
  obtain ⟨lower, upper⟩ := range
  have magnitude : n.natAbs ≤ 9223372036854775808 := by omega
  exact isFinite_ofMagnitude (nearest_lt_limit (Nat.le_trans magnitude (by decide)))

end Binary64

end RecordQuery
