import Mathlib.Algebra.Order.Field.Basic
import Mathlib.Tactic.FieldSimp
import Mathlib.Tactic.Linarith
import RecordQuery.Proofs.Binary64.Magnitudes

/-!
# Rounding is to the nearest

Of all magnitudes the rounded one is nearest to the given ratio, and between two that are equally
near it is the one with the even code. At most one magnitude is like that.
-/

namespace RecordQuery

/-! ### Integers -/

/-- An integer next to a number, the even one if there are two. -/
theorem nearestEven_near {num den : Nat} (positive : 0 < den) :
    |(num / den : ℚ) - nearestEven num den| < 1 / 2 ∨
      |(num / den : ℚ) - nearestEven num den| = 1 / 2 ∧ nearestEven num den % 2 = 0 := by
  have cast : (0 : ℚ) < den := Nat.cast_pos.mpr positive
  have parts : (num / den : ℚ) = (num / den : Nat) + (num % den : Nat) / den := by
    have bits : (num : ℚ) = den * (num / den : Nat) + (num % den : Nat) := by
      exact_mod_cast (Nat.div_add_mod num den).symm
    rw [bits]
    field_simp
  have nonneg : (0 : ℚ) ≤ (num % den : Nat) / den := div_nonneg (Nat.cast_nonneg _) cast.le
  have small : ((num % den : Nat) / den : ℚ) < 1 :=
    (div_lt_one cast).mpr (Nat.cast_lt.mpr (Nat.mod_lt num positive))
  have twice : 2 * ((num % den : Nat) / den : ℚ) = (2 * (num % den) : Nat) / den := by
    push_cast
    ring
  rw [parts]
  unfold nearestEven
  dsimp only
  split
  · next below =>
    have lower : 2 * ((num % den : Nat) / den : ℚ) < 1 := by
      rw [twice, div_lt_one cast]
      exact Nat.cast_lt.mpr (compare_lt_iff_lt.mp below)
    left
    rw [add_sub_cancel_left, abs_of_nonneg nonneg]
    linarith
  · next above =>
    have upper : 1 < 2 * ((num % den : Nat) / den : ℚ) := by
      rw [twice, one_lt_div cast]
      exact Nat.cast_lt.mpr (compare_gt_iff_gt.mp above)
    left
    rw [Nat.cast_add, Nat.cast_one, add_sub_add_left_eq_sub, abs_lt]
    constructor <;> linarith
  · next tie =>
    have same : 2 * ((num % den : Nat) / den : ℚ) = 1 := by
      rw [twice, div_eq_one_iff_eq cast.ne']
      exact congrArg Nat.cast (compare_eq_iff_eq.mp tie)
    right
    rcases Nat.mod_two_eq_zero_or_one (num / den) with even | odd
    · rw [even, Nat.add_zero, add_sub_cancel_left, abs_of_nonneg nonneg]
      exact ⟨by linarith, even⟩
    · rw [odd, Nat.cast_add, Nat.cast_one, add_sub_add_left_eq_sub, abs_of_neg (by linarith)]
      exact ⟨by linarith, by omega⟩

/-- A number within a half of an integer is at least as far from all others. -/
theorem half_le_of_near {x : ℚ} {n k : Nat} (near : |x - n| ≤ 1 / 2) (other : k ≠ n) :
    1 / 2 ≤ |x - k| := by
  have apart : (1 : ℚ) ≤ |(k : ℚ) - n| := by
    have integers : (1 : Int) ≤ |(k : Int) - n| := Int.one_le_abs (by omega)
    exact_mod_cast integers
  have triangle := abs_sub_le (k : ℚ) x n
  rw [abs_sub_comm (k : ℚ) x] at triangle
  linarith

section Integers

variable {num den k : Nat}

theorem nearestEven_half (positive : 0 < den) :
    |(num / den : ℚ) - nearestEven num den| ≤ 1 / 2 := by
  rcases nearestEven_near positive with near | tie
  · exact near.le
  · exact tie.1.le

theorem nearestEven_nearest (positive : 0 < den) (k : Nat) :
    |(num / den : ℚ) - nearestEven num den| ≤ |(num / den : ℚ) - k| := by
  by_cases same : k = nearestEven num den
  · rw [same]
  · exact (nearestEven_half positive).trans (half_le_of_near (nearestEven_half positive) same)

theorem nearestEven_tie (positive : 0 < den) (other : k ≠ nearestEven num den)
    (tie : |(num / den : ℚ) - nearestEven num den| = |(num / den : ℚ) - k|) :
    nearestEven num den % 2 = 0 := by
  have far := half_le_of_near (nearestEven_half positive) other
  rcases nearestEven_near positive with near | even
  · exact absurd far (by rw [← tie]; exact near.not_ge)
  · exact even.2

theorem nearestEven_mul (num den : Nat) {c : Nat} (positive : 0 < c) :
    nearestEven (num * c) (den * c) = nearestEven num den := by
  have sides : compare (2 * (num % den * c)) (den * c) = compare (2 * (num % den)) den := by
    rw [← Nat.mul_assoc]
    rcases lt_trichotomy (2 * (num % den)) den with less | same | greater
    · rw [compare_lt_iff_lt.mpr less]
      exact compare_lt_iff_lt.mpr (Nat.mul_lt_mul_of_pos_right less positive)
    · rw [same, compare_eq_iff_eq.mpr rfl, compare_eq_iff_eq.mpr rfl]
    · rw [compare_gt_iff_gt.mpr greater]
      exact compare_gt_iff_gt.mpr (Nat.mul_lt_mul_of_pos_right greater positive)
  unfold nearestEven
  simp only [Nat.mul_div_mul_right _ _ positive, Nat.mul_mod_mul_right, sides]

theorem le_nearestEven (num den : Nat) : num / den ≤ nearestEven num den := by
  unfold nearestEven
  dsimp only
  split <;> omega

end Integers

/-! ### Magnitudes -/

namespace FloatFormat

variable {format : FloatFormat} {num den : Nat}

/-- No other magnitude is nearer to a number of units, and those that are as near are passed over
for an even code. -/
structure Nearest (format : FloatFormat) (x : ℚ) (code : Nat) : Prop where
  near (other : Nat) : |x - format.units code| ≤ |x - format.units other|
  even (other : Nat) : other ≠ code → |x - format.units code| = |x - format.units other| →
    code % 2 = 0

/-- A magnitude is a multiple of any power of two that is not too large for it. -/
theorem multiple_or_below (format : FloatFormat) (exponent code : Nat) :
    (∃ k, format.units code = k * 2 ^ exponent) ∨
      exponent ≠ 0 ∧ format.units code < format.fractions * 2 ^ exponent := by
  obtain ⟨place, multiple, rfl, small, normal⟩ := format.exists_place code
  rw [format.units_place small.le normal]
  by_cases high : exponent ≤ place
  · refine .inl ⟨multiple * 2 ^ (place - exponent), ?_⟩
    rw [Nat.mul_assoc, ← Nat.pow_add, Nat.sub_add_cancel high]
  · refine .inr ⟨by omega, ?_⟩
    calc
      multiple * 2 ^ place < 2 * format.fractions * 2 ^ place :=
        Nat.mul_lt_mul_of_pos_right small (Nat.two_pow_pos _)
      _ = format.fractions * 2 ^ (place + 1) := by ring
      _ ≤ format.fractions * 2 ^ exponent :=
        Nat.mul_le_mul_left _ (Nat.pow_le_pow_right (by decide) (by omega))

/-- The place of the binade that a quotient is rounded in. -/
def place (format : FloatFormat) (q : Nat) : Nat := q.log2 - format.fractionBits

/-- Above the lowest binade it starts below the quotient. -/
theorem binade_le (format : FloatFormat) (q : Nat) :
    format.place q = 0 ∨ format.fractions * 2 ^ format.place q ≤ q := by
  by_cases low : q.log2 ≤ format.fractionBits
  · exact .inl (Nat.sub_eq_zero_of_le low)
  · refine .inr ?_
    have filled : q ≠ 0 := by
      rintro rfl
      exact low (Nat.zero_le _)
    calc
      format.fractions * 2 ^ (q.log2 - format.fractionBits) =
          2 ^ (format.fractionBits + (q.log2 - format.fractionBits)) := (Nat.pow_add ..).symm
      _ = 2 ^ q.log2 := by rw [Nat.add_sub_cancel' (by omega)]
      _ ≤ q := Nat.log2_self_le filled

/-- The multiple that the scaled numerator is rounded to is one of the binade. -/
theorem multiple_bounds (format : FloatFormat) (num den : Nat) :
    nearestEven num (den * 2 ^ format.place (num / den)) ≤ 2 * format.fractions ∧
      (format.place (num / den) = 0 ∨
        format.fractions ≤ nearestEven num (den * 2 ^ format.place (num / den))) := by
  have upper := nearestEven_le num (den * 2 ^ format.place (num / den))
  have lower := le_nearestEven num (den * 2 ^ format.place (num / den))
  rw [← Nat.div_div_eq_div_mul] at upper lower
  have cut : num / den / 2 ^ format.place (num / den) < 2 * format.fractions :=
    format.significand_lt (num / den)
  refine ⟨by omega, (format.binade_le (num / den)).imp_right fun start => ?_⟩
  exact ((Nat.le_div_iff_mul_le (Nat.two_pow_pos _)).mpr start).trans lower

theorem units_nearest (format : FloatFormat) (num den : Nat) :
    format.units (format.nearest num den) =
      nearestEven (num * format.one) (den * 2 ^ format.place (num * format.one / den)) *
        2 ^ format.place (num * format.one / den) := by
  have bounds := format.multiple_bounds (num * format.one) den
  exact format.units_place bounds.1 bounds.2

/-- An integer that is longer than a significand loses its last bits. -/
theorem units_nearest_integer {n k : Nat} (format : FloatFormat) (long : format.fractionBits ≤ k)
    (lower : 2 ^ k ≤ n) (upper : n < 2 ^ (k + 1)) : format.units (format.nearest n 1) =
      nearestEven n (2 ^ (k - format.fractionBits)) * 2 ^ (k - format.fractionBits) *
        format.one := by
  have filled : n * format.one ≠ 0 :=
    Nat.mul_ne_zero (Nat.ne_of_gt (Nat.lt_of_lt_of_le (Nat.two_pow_pos k) lower)) format.one_pos.ne'
  have log : (n * format.one).log2 = k + format.unitExponent := by
    rw [Nat.log2_eq_iff filled, Nat.pow_add, Nat.add_right_comm, Nat.pow_add]
    exact ⟨Nat.mul_le_mul_right _ lower, Nat.mul_lt_mul_of_pos_right upper format.one_pos⟩
  have place : 2 ^ format.place (n * format.one / 1) =
      2 ^ (k - format.fractionBits) * format.one := by
    have exponent : format.place (n * format.one / 1) =
        k - format.fractionBits + format.unitExponent := by
      rw [FloatFormat.place, Nat.div_one, log]
      omega
    rw [exponent, Nat.pow_add]
    rfl
  rw [units_nearest, place, Nat.one_mul, nearestEven_mul _ _ format.one_pos, Nat.mul_assoc]

/-- Distances are the same in units of any size. -/
theorem dist_scaled (num den exponent k : Nat) :
    |(num / den : ℚ) - (k * 2 ^ exponent : Nat)| =
      2 ^ exponent * |(num / (den * 2 ^ exponent : Nat) : ℚ) - k| := by
  have step : (0 : ℚ) < 2 ^ exponent := by positivity
  have scaled : (num / den : ℚ) - (k * 2 ^ exponent : Nat) =
      2 ^ exponent * (num / (den * 2 ^ exponent : Nat) - k) := by
    push_cast
    field_simp
  rw [scaled, abs_mul, abs_of_pos step]

section Multiples

variable {exponent : Nat}

theorem multiple_nearest (positive : 0 < den) (k : Nat) :
    |(num / den : ℚ) - (nearestEven num (den * 2 ^ exponent) * 2 ^ exponent : Nat)| ≤
      |(num / den : ℚ) - (k * 2 ^ exponent : Nat)| := by
  have step : (0 : ℚ) ≤ 2 ^ exponent := by positivity
  rw [dist_scaled, dist_scaled]
  exact mul_le_mul_of_nonneg_left
    (nearestEven_nearest (Nat.mul_pos positive (Nat.two_pow_pos _)) k) step

/-- What lies below the start of a binade is farther away from a number in it than the start. -/
theorem multiple_nearer {other : Nat} (positive : 0 < den)
    (start : format.fractions * 2 ^ exponent ≤ num / den)
    (below : format.units other < format.fractions * 2 ^ exponent) :
    |(num / den : ℚ) - (nearestEven num (den * 2 ^ exponent) * 2 ^ exponent : Nat)| <
      |(num / den : ℚ) - format.units other| := by
  have reached : ((format.fractions * 2 ^ exponent : Nat) : ℚ) ≤ num / den := by
    rw [le_div_iff₀ (Nat.cast_pos.mpr positive)]
    exact_mod_cast (Nat.le_div_iff_mul_le positive).mp start
  calc
    _ ≤ |(num / den : ℚ) - (format.fractions * 2 ^ exponent : Nat)| := multiple_nearest positive _
    _ = num / den - (format.fractions * 2 ^ exponent : Nat) :=
      abs_of_nonneg (sub_nonneg.mpr reached)
    _ < num / den - format.units other := sub_lt_sub_left (Nat.cast_lt.mpr below) _
    _ ≤ |(num / den : ℚ) - format.units other| := le_abs_self _

theorem multiple_tie (positive : 0 < den) {k : Nat}
    (other : k ≠ nearestEven num (den * 2 ^ exponent))
    (tie : |(num / den : ℚ) - (nearestEven num (den * 2 ^ exponent) * 2 ^ exponent : Nat)| =
      |(num / den : ℚ) - (k * 2 ^ exponent : Nat)|) :
    nearestEven num (den * 2 ^ exponent) % 2 = 0 := by
  have step : (2 : ℚ) ^ exponent ≠ 0 := by positivity
  rw [dist_scaled, dist_scaled] at tie
  exact nearestEven_tie (Nat.mul_pos positive (Nat.two_pow_pos _)) other
    (mul_left_cancel₀ step tie)

end Multiples

/-- Rounding is to the nearest magnitude. -/
theorem nearest_nearest (stored : 0 < format.fractionBits) (positive : 0 < den) :
    format.Nearest ((num * format.one : Nat) / den) (format.nearest num den) := by
  have result := format.units_nearest num den
  have start := format.binade_le (num * format.one / den)
  have code : format.nearest num den = format.place (num * format.one / den) * format.fractions +
    nearestEven (num * format.one) (den * 2 ^ format.place (num * format.one / den)) := rfl
  generalize num * format.one = scaled at *
  generalize format.place (scaled / den) = exponent at *
  -- Every other magnitude is a multiple of the same power of two or lies below the binade.
  constructor
  · intro other
    rw [result]
    rcases format.multiple_or_below exponent other with ⟨k, multiple⟩ | ⟨high, below⟩
    · rw [multiple]
      exact multiple_nearest positive k
    · exact (multiple_nearer positive (start.resolve_left high) below).le
  · intro other different tie
    rw [result] at tie
    rcases format.multiple_or_below exponent other with ⟨k, multiple⟩ | ⟨high, below⟩
    · have another : k ≠ nearestEven scaled (den * 2 ^ exponent) := by
        rintro rfl
        exact different (format.units_strictMono.injective (multiple.trans result.symm))
      have even := multiple_tie positive another (multiple ▸ tie)
      have fractions : 2 ∣ format.fractions := dvd_pow_self 2 stored.ne'
      rw [code]
      exact Nat.mod_eq_zero_of_dvd
        (Nat.dvd_add (fractions.mul_left _) (Nat.dvd_of_mod_eq_zero even))
    · exact absurd tie (multiple_nearer positive (start.resolve_left high) below).ne

namespace Nearest

variable {x : ℚ} {code other : Nat}

/-- What lies below a number lies below its nearest magnitude. -/
theorem le (nearest : format.Nearest x code) (below : (format.units other : ℚ) ≤ x) :
    other ≤ code := by
  refine Nat.le_of_not_lt fun less => ?_
  have smaller : (format.units code : ℚ) < format.units other :=
    Nat.cast_lt.mpr (format.units_strictMono less)
  have near := nearest.near other
  rw [abs_of_nonneg (by linarith), abs_of_nonneg (by linarith)] at near
  linarith

theorem not_lt (first : format.Nearest x code) (second : format.Nearest x other) :
    ¬ code < other := by
  intro less
  have tie := le_antisymm (first.near other) (second.near code)
  have even := first.even other less.ne' tie
  have even' := second.even code less.ne tie.symm
  -- Two even codes have a third one in between, which is nearer.
  have lower : (format.units code : ℚ) < format.units (code + 1) :=
    Nat.cast_lt.mpr (format.units_strictMono (Nat.lt_succ_self code))
  have upper : (format.units (code + 1) : ℚ) < format.units other :=
    Nat.cast_lt.mpr (format.units_strictMono (by omega))
  rcases le_total x (format.units (code + 1)) with left | right
  · have near := second.near (code + 1)
    rw [abs_of_nonpos (by linarith), abs_of_nonpos (by linarith)] at near
    linarith
  · have near := first.near (code + 1)
    rw [abs_of_nonneg (by linarith), abs_of_nonneg (by linarith)] at near
    linarith

theorem unique (first : format.Nearest x code) (second : format.Nearest x other) : code = other :=
  le_antisymm (Nat.le_of_not_lt (second.not_lt first)) (Nat.le_of_not_lt (first.not_lt second))

/-- A magnitude is nearest to itself. -/
theorem self (format : FloatFormat) (code : Nat) :
    format.Nearest (format.units code) code := by
  constructor
  · intro other
    rw [sub_self, abs_zero]
    exact abs_nonneg _
  · intro other different tie
    rw [sub_self, abs_zero, eq_comm, abs_eq_zero, sub_eq_zero, Nat.cast_inj] at tie
    exact absurd (format.units_strictMono.injective tie).symm different

/-- Zero is nearest to what is less than half a unit. -/
theorem zero (nonneg : 0 ≤ x) (small : x < 1 / 2) : format.Nearest x 0 := by
  have nothing : format.units 0 = 0 := format.units_subnormal format.fractions_pos
  have strict {other : Nat} (different : other ≠ 0) :
      |x - format.units 0| < |x - format.units other| := by
    have unit : (1 : ℚ) ≤ format.units other := by
      have more := format.units_strictMono (Nat.pos_of_ne_zero different)
      exact_mod_cast Nat.succ_le_of_lt (nothing ▸ more)
    rw [nothing, Nat.cast_zero, sub_zero, abs_of_nonneg nonneg, abs_of_nonpos (by linarith)]
    linarith
  constructor
  · intro other
    by_cases same : other = 0
    · rw [same]
    · exact (strict same).le
  · intro other different tie
    rfl

end Nearest

end FloatFormat

end RecordQuery
