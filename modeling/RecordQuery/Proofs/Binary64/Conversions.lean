import RecordQuery.Proofs.Binary64.Nearest
import RecordQuery.Proofs.Text.Decimals

/-!
# Conversions round to the nearest float

Ratios, integers and decimals become the nearest float, and so do the numerals that a reader takes
for one. A number that is the number of some float is therefore kept as it is.
-/

namespace RecordQuery.Binary64

open Text Text.Numeral

variable {q : ℚ} {x y : Binary64}

/-- The float is on the same side of zero as the number and has the nearest magnitude. A magnitude
past the finite ones is infinite. -/
inductive IsNearest (q : ℚ) : Binary64 → Prop
  | mk {negative : Bool} {code : Nat} (side : q = if negative then -|q| else |q|)
      (near : FloatFormat.double.Nearest (|q| * one) code) :
      IsNearest q (ofMagnitude negative code)

/-! ### Numbers -/

theorem number?_ofMagnitude {code : Nat} (negative : Bool) (finite : code < limit) :
    (ofMagnitude negative code).number? =
      some (if negative then -(units code / one : ℚ) else units code / one) := by
  rw [ofMagnitude, dif_pos finite]
  rfl

theorem units_zero : units 0 = 0 :=
  FloatFormat.double.units_subnormal FloatFormat.double.fractions_pos

/-- Nearest floats differ in the sign of zero at most. -/
theorem IsNearest.number?_congr (first : IsNearest q x) (second : IsNearest q y) :
    x.number? = y.number? := by
  obtain ⟨side, near⟩ := first
  obtain ⟨side', near'⟩ := second
  obtain rfl := near.unique near'
  next negative code negative' =>
  by_cases same : negative = negative'
  · rw [same]
  · have nothing : |q| = 0 := by
      cases negative <;> cases negative'
      · exact absurd rfl same
      · simp only [Bool.false_eq_true, if_false, if_true] at side side'
        linarith
      · simp only [Bool.false_eq_true, if_false, if_true] at side side'
        linarith
      · exact absurd rfl same
    rw [nothing, zero_mul] at near
    obtain rfl := near.unique (.zero le_rfl (by norm_num))
    rw [number?_ofMagnitude _ (by decide), number?_ofMagnitude _ (by decide), units_zero,
      Nat.cast_zero, zero_div, neg_zero, ite_self, ite_self]

theorem isNearest_of_number? (number : x.number? = some q) : IsNearest q x := by
  cases x with
  | finite negative code =>
    have positive : (0 : ℚ) < one := Nat.cast_pos.mpr one_pos
    have magnitude : |q| = units code / one := by
      rw [← Option.some.inj number]
      exact abs_signed (magnitude_nonneg _ _) negative
    have side : q = if negative then -|q| else |q| := by
      rw [magnitude]
      exact (Option.some.inj number).symm
    have near : FloatFormat.double.Nearest (|q| * one) code := by
      rw [magnitude, div_mul_cancel₀ _ positive.ne']
      exact .self _ _
    have same : ofMagnitude negative code = finite negative code := dif_pos code.isLt
    exact same ▸ .mk side near
  | _ => cases number

/-- The number of a float is not changed by rounding. -/
theorem IsNearest.eq_of_number? (nearest : IsNearest q x) (number : y.number? = some q) :
    x.number? = some q :=
  (nearest.number?_congr (isNearest_of_number? number)).trans number

/-! ### Ratios -/

theorem isNearest_ofRatio (negative : Bool) (num : Nat) {den : Nat} (positive : 0 < den) :
    IsNearest (if negative then -(num / den : ℚ) else num / den) (ofRatio negative num den) := by
  have magnitude := abs_signed (magnitude_nonneg num den) negative
  have near : FloatFormat.double.Nearest ((num * one : Nat) / den)
      (FloatFormat.double.nearest num den) :=
    FloatFormat.double.nearest_nearest (by decide) positive
  refine .mk (by rw [magnitude]) ?_
  rw [magnitude, div_mul_eq_mul_div]
  exact_mod_cast near

/-! ### Long integers -/

/-- An integer that needs all 64 bits becomes a multiple of 2048. -/
theorem exists_ofInt_long {n : Nat} (long : 2 ^ 63 ≤ n ∧ n < 2 ^ 64) : ∃ code : Fin limit,
    ofInt n = finite false code ∧ units code = nearestEven n 2048 * 2048 * one := by
  have finite := nearest_lt_limit long.2.le
  refine ⟨⟨_, finite⟩, ?_, ?_⟩
  · have positive : decide ((n : Int) < 0) = false := decide_eq_false (by omega)
    rw [ofInt, positive, Int.natAbs_natCast, ofRatio, ofMagnitude, dif_pos finite]
  · have rounded := FloatFormat.double.units_nearest_integer (by decide) long.1 long.2
    have step : 2 ^ (63 - FloatFormat.double.fractionBits) = 2048 := by decide
    rw [step] at rounded
    exact rounded

theorem number?_ofInt_long {n : Nat} (long : 2 ^ 63 ≤ n ∧ n < 2 ^ 64) :
    (ofInt n).number? = some ((nearestEven n 2048 * 2048 : Nat) : ℚ) := by
  obtain ⟨code, float, magnitude⟩ := exists_ofInt_long long
  have positive : (one : ℚ) ≠ 0 := Nat.cast_ne_zero.mpr one_pos.ne'
  rw [float, number?, magnitude, Nat.cast_mul _ one, mul_div_cancel_right₀ _ positive]
  rfl

/-! ### Decimals -/

theorem tenTo_add (m n : Nat) : tenTo (m + n) = tenTo m * tenTo n := Nat.pow_add ..

theorem tenTo_pos (n : Nat) : 0 < tenTo n := Nat.pow_pos (by decide)

theorem lt_tenTo_digits (n : Nat) : n < tenTo (digits n).length :=
  (Nat.length_toDigits_le_iff (by decide) (List.length_pos_of_ne_nil Nat.toDigits_ne_nil)).mp le_rfl

theorem tenTo_digits_le {n : Nat} (filled : n ≠ 0) : tenTo ((digits n).length - 1) ≤ n := by
  have long : 0 < (digits n).length := List.length_pos_of_ne_nil Nat.toDigits_ne_nil
  by_cases single : (digits n).length = 1
  · rw [single]
    exact Nat.pos_of_ne_zero filled
  · refine Nat.le_of_not_lt fun less => ?_
    have short : (digits n).length ≤ (digits n).length - 1 :=
      (Nat.length_toDigits_le_iff (by decide) (by omega)).mpr less
    omega

variable {num den : Nat}

/-- A ratio with 330 zeros behind its point is rounded to zero. -/
theorem nearest_of_small (positive : 0 < den) (small : num * tenTo 330 < den) :
    FloatFormat.double.nearest num den = 0 := by
  have scale : 2 * FloatFormat.double.one ≤ tenTo 330 := by decide +kernel
  have less : 2 * (num * FloatFormat.double.one) < den := by
    calc
      2 * (num * FloatFormat.double.one) = num * (2 * FloatFormat.double.one) := by ring
      _ ≤ num * tenTo 330 := Nat.mul_le_mul_left _ scale
      _ < den := small
  refine (FloatFormat.double.nearest_nearest (by decide) positive).unique
    (.zero (magnitude_nonneg _ _) ?_)
  rw [div_lt_div_iff₀ (Nat.cast_pos.mpr positive) (by norm_num), one_mul, mul_comm]
  exact_mod_cast less

/-- A ratio with 310 digits before its point is past the finite floats. -/
theorem limit_le_nearest (positive : 0 < den) (large : tenTo 309 * den ≤ num) :
    limit ≤ FloatFormat.double.nearest num den := by
  have scale : units limit ≤ tenTo 309 * FloatFormat.double.one := by decide +kernel
  refine (FloatFormat.double.nearest_nearest (by decide) positive).le ?_
  rw [le_div_iff₀ (Nat.cast_pos.mpr positive)]
  have enough : FloatFormat.double.units limit * den ≤ num * FloatFormat.double.one := by
    calc
      FloatFormat.double.units limit * den ≤ tenTo 309 * FloatFormat.double.one * den :=
        Nat.mul_le_mul_right _ scale
      _ = tenTo 309 * den * FloatFormat.double.one := by ring
      _ ≤ num * FloatFormat.double.one := Nat.mul_le_mul_right _ large
  exact_mod_cast enough

section Size

variable {coefficient : Nat} {exponent : Int}

theorem nearest_of_size_le
    (size : coefficient = 0 ∨ (digits coefficient).length + exponent ≤ -330) :
    FloatFormat.double.nearest (coefficient * tenTo exponent.toNat)
      (tenTo (-exponent).toNat) = 0 := by
  refine nearest_of_small (tenTo_pos _) ?_
  rcases size with rfl | size
  · rw [Nat.zero_mul, Nat.zero_mul]
    exact tenTo_pos _
  · calc
      coefficient * tenTo exponent.toNat * tenTo 330 <
          tenTo (digits coefficient).length * tenTo exponent.toNat * tenTo 330 :=
        Nat.mul_lt_mul_of_pos_right
          (Nat.mul_lt_mul_of_pos_right (lt_tenTo_digits coefficient) (tenTo_pos _)) (tenTo_pos _)
      _ = tenTo ((digits coefficient).length + exponent.toNat + 330) := by
        rw [tenTo_add, tenTo_add]
      _ ≤ tenTo (-exponent).toNat := Nat.pow_le_pow_right (by decide) (by omega)

theorem limit_le_of_size (filled : coefficient ≠ 0)
    (size : 310 ≤ (digits coefficient).length + exponent) :
    limit ≤ FloatFormat.double.nearest (coefficient * tenTo exponent.toNat)
      (tenTo (-exponent).toNat) := by
  refine limit_le_nearest (tenTo_pos _) ?_
  calc
    tenTo 309 * tenTo (-exponent).toNat = tenTo (309 + (-exponent).toNat) := (tenTo_add ..).symm
    _ ≤ tenTo ((digits coefficient).length - 1 + exponent.toNat) :=
      Nat.pow_le_pow_right (by decide) (by omega)
    _ = tenTo ((digits coefficient).length - 1) * tenTo exponent.toNat := tenTo_add ..
    _ ≤ coefficient * tenTo exponent.toNat := Nat.mul_le_mul_right _ (tenTo_digits_le filled)

/-- The bounds on the size of a decimal only save work. -/
theorem ofDecimal_eq (negative : Bool) (coefficient : Nat) (exponent : Int) :
    ofDecimal negative coefficient exponent =
      ofRatio negative (coefficient * tenTo exponent.toNat) (tenTo (-exponent).toNat) := by
  unfold ofDecimal
  dsimp only
  split
  · next small => rw [ofRatio, nearest_of_size_le small]
  · next filled =>
    split
    · next large =>
      have past := limit_le_of_size (not_or.mp filled).1 large
      rw [ofRatio, ofMagnitude, dif_neg (Nat.not_lt.mpr past)]
    · rfl

end Size

theorem isNearest_ofDecimal (negative : Bool) (coefficient : Nat) (exponent : Int) :
    IsNearest (if negative then -(coefficient * 10 ^ exponent : ℚ) else coefficient * 10 ^ exponent)
      (ofDecimal negative coefficient exponent) := by
  have ratio : (coefficient * 10 ^ exponent : ℚ) =
      (coefficient * tenTo exponent.toNat : Nat) / (tenTo (-exponent).toNat : Nat) := by
    have power (n : Nat) : ((tenTo n : Nat) : ℚ) = 10 ^ n := by
      exact_mod_cast rfl
    rw [Nat.cast_mul, power, power]
    rcases Int.eq_nat_or_neg exponent with ⟨n, rfl | rfl⟩
    · simp
    · simp [div_eq_mul_inv]
  rw [ofDecimal_eq, ratio]
  exact isNearest_ofRatio negative _ (tenTo_pos _)

/-! ### Numerals -/

variable {s : List Char}

theorem readDecimal?_eq (s : List Char) : readDecimal? (splitSign s).1 (splitSign s).2 =
    (parts? s).map fun p =>
      ofDecimal p.negative (value (p.whole ++ p.fraction)) (p.exponent - p.fraction.length) := by
  have split : readDecimal? (splitSign s).1 (splitSign s).2 =
      let whole := (splitSign s).2.takeWhile Char.isDigit
      let behind := splitPoint ((splitSign s).2.dropWhile Char.isDigit)
      if whole ++ behind.1 = [] then none
      else (readExponent? behind.2).map fun exponent =>
        ofDecimal (splitSign s).1 (value (whole ++ behind.1)) (exponent - behind.1.length) := by
    unfold readDecimal?
    dsimp only
    split
    · next tail behind =>
      rw [behind]
      rfl
    · next bare => rw [splitPoint_bare bare]
  rw [split, parts?]
  dsimp only
  by_cases empty : (splitSign s).2.takeWhile Char.isDigit ++
      (splitPoint ((splitSign s).2.dropWhile Char.isDigit)).1 = []
  · rw [if_pos empty, if_pos empty, Option.map_none]
  · rw [if_neg empty, if_neg empty, Option.map_map]
    rfl

theorem toLower_digit {c : Char} (digit : c.isDigit = true) : c.toLower = c := by
  have range := digit_range digit
  have small : ¬ (c.val ≥ 'A'.val ∧ c.val ≤ 'Z'.val) := by
    simp [UInt32.le_iff_toNat_le]
    omega
  exact dif_neg small

/-- A decimal numeral is none of the words for other floats, as it starts with no letter. -/
theorem read?_of_head {negative : Bool} {c : Char} {rest : List Char}
    (split : splitSign s = (negative, c :: rest)) (starts : c.isDigit = true ∨ c = '.') :
    read? s = readDecimal? negative (c :: rest) := by
  have same : c.toLower = c := by
    rcases starts with digit | rfl
    · exact toLower_digit digit
    · rfl
  have different {letter : Char} {word : List Char}
      (other : (letter.isDigit || letter == '.') = false)
      (text : String.ofList (lower (c :: rest)) = String.ofList (letter :: word)) : False := by
    have head := (List.cons.inj (String.ofList_injective text)).1
    rw [same] at head
    rcases starts with digit | rfl
    · simp [← head, digit] at other
    · simp [← head] at other
  unfold read?
  rw [split]
  dsimp only
  split
  · next text => exact (different (by decide) text).elim
  · next text => exact (different (by decide) text).elim
  · next text => exact (different (by decide) text).elim
  · rfl

/-- A decimal numeral is read as the float nearest to its number. -/
theorem exists_read? (denotes : Denotes s q) : ∃ x, read? s = some x ∧ IsNearest q x := by
  obtain ⟨p, spelled, rfl⟩ := denotes
  obtain ⟨c, rest, split, starts⟩ := spelled.splitSign
  have parts := readDecimal?_eq s
  rw [parts?_eq_some.mpr spelled, split] at parts
  refine ⟨_, (read?_of_head split starts).trans parts, ?_⟩
  have near := isNearest_ofDecimal p.negative (value (p.whole ++ p.fraction))
    (p.exponent - p.fraction.length)
  rwa [← p.magnitude_eq] at near

/-- Only a decimal numeral is read as a finite float. -/
theorem exists_denotes (found : read? s = some x) (finite : x.isFinite = true) :
    ∃ q, Denotes s q := by
  unfold read? at found
  dsimp only at found
  split at found
  · cases found
    cases finite
  · cases found
    cases finite
  · cases found
    cases finite
  · rw [readDecimal?_eq, Option.map_eq_some_iff] at found
    obtain ⟨p, parts, _⟩ := found
    exact ⟨_, p, parts?_eq_some.mp parts, rfl⟩

end RecordQuery.Binary64
