import Mathlib.Algebra.Order.Field.Rat
import Mathlib.Algebra.Order.Ring.Cast
import Mathlib.Algebra.Order.Ring.Int
import Mathlib.Data.Nat.Cast.Field
import Mathlib.Order.Monotone.Basic
import Mathlib.Tactic.Ring
import RecordQuery.Proofs.Binary64.Bounds

/-!
# Magnitudes

The magnitudes of a format in units of the least positive one. Inside a binade they are the
multiples of one power of two, so a larger code is a larger magnitude. A finite float is a rational
number.
-/

namespace RecordQuery

namespace FloatFormat

variable (format : FloatFormat)

theorem fractions_pos : 0 < format.fractions := Nat.two_pow_pos _

theorem one_pos : 0 < format.one := Nat.two_pow_pos _

/-- A code is the place of a binade and a multiple in it. The lowest binade starts at zero, and in
every other one the lower half of the multiples belongs to the binades below. -/
theorem exists_place (code : Nat) : ∃ exponent multiple,
    code = exponent * format.fractions + multiple ∧ multiple < 2 * format.fractions ∧
      (exponent = 0 ∨ format.fractions ≤ multiple) := by
  have positive := format.fractions_pos
  by_cases low : code < format.fractions
  · exact ⟨0, code, by omega, by omega, .inl rfl⟩
  · have bits := Nat.div_add_mod code format.fractions
    have rest := Nat.mod_lt code positive
    have binade : 0 < code / format.fractions := Nat.div_pos (by omega) positive
    refine ⟨code / format.fractions - 1, format.fractions + code % format.fractions, ?_, by omega,
      .inr (by omega)⟩
    rw [Nat.mul_comm, Nat.mul_sub_one]
    have enough : format.fractions ≤ format.fractions * (code / format.fractions) :=
      Nat.le_mul_of_pos_right _ binade
    omega

theorem units_subnormal {code : Nat} (low : code < format.fractions) :
    format.units code = code := by
  rw [units, significand, if_pos low, Nat.div_eq_of_lt low]
  exact Nat.mul_one _

theorem units_normal {rest : Nat} (exponent : Nat) (small : rest < format.fractions) :
    format.units ((exponent + 1) * format.fractions + rest) =
      (format.fractions + rest) * 2 ^ exponent := by
  have positive := format.fractions_pos
  have high : ¬ (exponent + 1) * format.fractions + rest < format.fractions := by
    rw [Nat.succ_mul]
    omega
  rw [units, significand, if_neg high, Nat.add_comm _ rest, Nat.add_mul_mod_self_right,
    Nat.mod_eq_of_lt small, Nat.add_mul_div_right _ _ positive, Nat.div_eq_of_lt small, Nat.zero_add]
  rfl

/-- The first magnitude of the next binade is a multiple in this one, too. -/
theorem units_place {exponent multiple : Nat} (top : multiple ≤ 2 * format.fractions)
    (normal : exponent = 0 ∨ format.fractions ≤ multiple) :
    format.units (exponent * format.fractions + multiple) = multiple * 2 ^ exponent := by
  by_cases low : multiple < format.fractions
  · obtain rfl : exponent = 0 := normal.resolve_right (by omega)
    rw [Nat.zero_mul, Nat.zero_add, format.units_subnormal low, Nat.pow_zero, Nat.mul_one]
  · obtain ⟨rest, rfl⟩ := Nat.exists_eq_add_of_le (Nat.not_lt.mp low)
    have start : exponent * format.fractions + (format.fractions + rest) =
        (exponent + 1) * format.fractions + rest := by
      rw [Nat.succ_mul, Nat.add_assoc]
    rw [start]
    by_cases inside : rest < format.fractions
    · exact format.units_normal exponent inside
    · obtain rfl : rest = format.fractions := by omega
      have next := format.units_normal (exponent + 1) format.fractions_pos
      rw [Nat.add_zero, Nat.succ_mul] at next
      rw [next]
      ring

theorem units_lt_succ (code : Nat) : format.units code < format.units (code + 1) := by
  obtain ⟨exponent, multiple, rfl, small, normal⟩ := format.exists_place code
  have next : format.units (exponent * format.fractions + (multiple + 1)) =
      (multiple + 1) * 2 ^ exponent :=
    format.units_place (by omega) (normal.imp_right fun _ => by omega)
  rw [Nat.add_assoc, next, format.units_place (by omega) normal]
  exact Nat.mul_lt_mul_of_pos_right (Nat.lt_succ_self _) (Nat.two_pow_pos _)

theorem units_strictMono : StrictMono format.units := strictMono_nat_of_lt_succ format.units_lt_succ

end FloatFormat

namespace Binary64

/-- The rational number that a finite float is. -/
def number? : Binary64 → Option ℚ
  | finite negative code =>
    let magnitude : ℚ := units code / one
    some (if negative then -magnitude else magnitude)
  | _ => none

theorem one_pos : 0 < one := FloatFormat.double.one_pos

theorem magnitude_nonneg (num den : Nat) : (0 : ℚ) ≤ num / den :=
  div_nonneg (Nat.cast_nonneg _) (Nat.cast_nonneg _)

theorem abs_signed {magnitude : ℚ} (nonneg : 0 ≤ magnitude) (negative : Bool) :
    |if negative then -magnitude else magnitude| = magnitude := by
  split
  · rw [abs_neg, abs_of_nonneg nonneg]
  · exact abs_of_nonneg nonneg

/-- The integer that a float is, told of its number. -/
theorem toInt?_eq_some {x : Binary64} {n : Int} : x.toInt? = some n ↔ x.number? = some (n : ℚ) := by
  cases x with
  | finite negative code =>
    have positive : (one : ℚ) ≠ 0 := Nat.cast_ne_zero.mpr one_pos.ne'
    simp only [toInt?, number?, Option.some.injEq]
    by_cases whole : units code % one = 0
    · have magnitude : (units code : ℚ) / one = (units code / one : Nat) :=
        (Nat.cast_div (Nat.dvd_of_mod_eq_zero whole) positive).symm
      rw [if_pos whole, Option.some.injEq, magnitude]
      cases negative
      · exact Int.cast_inj.symm
      · exact Int.cast_inj.symm
    · rw [if_neg whole]
      refine iff_of_false (Option.some_ne_none n).symm fun number => whole ?_
      have magnitude : (units code : ℚ) / one = n.natAbs := by
        rw [Nat.cast_natAbs, Int.cast_abs, ← number, abs_signed (magnitude_nonneg _ _)]
      rw [div_eq_iff positive] at magnitude
      have product : units code = n.natAbs * one := by exact_mod_cast magnitude
      rw [product, Nat.mul_mod_left]
  | _ => simp [toInt?, number?]

end Binary64

end RecordQuery
