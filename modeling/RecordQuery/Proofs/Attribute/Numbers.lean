import RecordQuery.Proofs.Attribute.Holds
import RecordQuery.Proofs.Binary64.Conversions

/-!
# Numbers in string attributes

A payload integer for a string attribute becomes its decimal text as long as 63 bits hold it. A
longer one is a float by then, the nearest multiple of 2048, and its text is that of the float.
-/

namespace RecordQuery

open Text.Numeral

/-! ### Texts of integers -/

namespace Text.Numeral

variable {n m : Int}

theorem ofList_signed (n : Int) : String.ofList (signed n) = toString n := by
  cases n with
  | ofNat m => rfl
  | negSucc m =>
    have negative : decide (Int.negSucc m < 0) = true := decide_eq_true (Int.negSucc_lt_zero m)
    rw [signed, negative, sign, if_pos rfl, String.ofList_append]
    rfl

theorem toString_injective (same : toString n = toString m) : n = m := by
  rw [← ofList_signed, ← ofList_signed] at same
  exact signed_injective (String.ofList_injective same)

theorem toString_ne_point (n : Int) (s : String) : toString n ≠ s ++ ".0" := by
  intro same
  have point : '.' ∈ signed n := by
    rw [← String.toList_ofList (l := signed n), ofList_signed, same, String.toList_append]
    exact List.mem_append_right _ List.mem_cons_self
  rw [signed, sign] at point
  rcases List.mem_append.mp point with minus | digit
  · split at minus <;> simp at minus
  · exact absurd (isDigit_of_mem_digits digit) (by decide)

end Text.Numeral

/-- The text of a float that is a whole number. -/
theorem Value.literal_whole {code : Fin Binary64.limit} {n : Nat}
    (magnitude : Binary64.units code = n * Binary64.one) :
    (Value.float (.finite false code)).literal = toString n ++ ".0" := by
  have text : Binary64.plainText code = digits n ++ ['.', '0'] := by
    rw [Binary64.plainText, magnitude, Nat.mul_mod_left, Nat.mul_div_cancel _ Binary64.one_pos]
    rfl
  show String.ofList (Binary64.plainText code) = _
  rw [text, String.ofList_append]
  rfl

namespace Attribute

variable {a : Attribute} {schema field : String} {n : Int}

theorem coercePayload_written (scalar : a.kind? = some .string) (short : InRange n) :
    a.coercePayload schema field (.integer n) = .ok (.string (toString n)) := by
  have same := toInt_of_narrow (if_pos short : narrow? n = some (Int64.ofInt n))
  have text : (Value.integer (Int64.ofInt n)).literal = toString n :=
    (ofList_signed _).trans (congrArg toString same)
  rw [coercePayload_short short, ← text]
  exact (coerce_eq_ok_iff (w := .string _) scalar nofun).mpr rfl

theorem coercePayload_rounded (scalar : a.kind? = some .string) {n : Nat}
    (long : 2 ^ 63 ≤ n ∧ n < 2 ^ 64) : a.coercePayload schema field (.integer n) =
      .ok (.string (toString (nearestEven n 2048 * 2048) ++ ".0")) := by
  have wide : ¬ InRange (n : Int) := by
    unfold InRange
    omega
  obtain ⟨code, float, magnitude⟩ := Binary64.exists_ofInt_long long
  rw [coercePayload_long wide, float, ← Value.literal_whole magnitude]
  exact (coerce_eq_ok_iff (w := .string _) scalar nofun).mpr rfl

end Attribute

/-! ### Payload integers -/

/-- The text that a string attribute gets for an integer: its own, or that of a float. -/
def Payload.integerText (n : Int) : String :=
  if n < 2 ^ 63 then toString n else toString (nearestEven n.toNat 2048 * 2048) ++ ".0"

namespace Payload

variable {m n : Int}

theorem integerText_eq_iff : integerText n = toString n ↔ n < 2 ^ 63 := by
  by_cases short : n < 2 ^ 63
  · rw [integerText, if_pos short]
    exact iff_of_true rfl short
  · rw [integerText, if_neg short]
    exact iff_of_false (fun same => toString_ne_point n _ same.symm) short

theorem integerText_inj : integerText m = integerText n ↔
    m = n ∨ 2 ^ 63 ≤ m ∧ 2 ^ 63 ≤ n ∧ nearestEven m.toNat 2048 = nearestEven n.toNat 2048 := by
  by_cases first : m < 2 ^ 63 <;> by_cases second : n < 2 ^ 63
  · rw [integerText, integerText, if_pos first, if_pos second]
    refine ⟨fun same => .inl (toString_injective same), ?_⟩
    rintro (rfl | long)
    · rfl
    · omega
  · rw [integerText, integerText, if_pos first, if_neg second]
    exact iff_of_false (toString_ne_point m _) (by omega)
  · rw [integerText, integerText, if_neg first, if_pos second]
    exact iff_of_false (fun same => toString_ne_point n _ same.symm) (by omega)
  · rw [integerText, integerText, if_neg first, if_neg second]
    constructor
    · intro same
      have texts := (String.append_left_inj _).mp same
      have halves : ((nearestEven m.toNat 2048 * 2048 : Nat) : Int) =
          (nearestEven n.toNat 2048 * 2048 : Nat) := toString_injective texts
      exact .inr ⟨by omega, by omega, by omega⟩
    · rintro (rfl | ⟨_, _, same⟩)
      · rfl
      · rw [same]

end Payload

namespace Attribute

variable {a : Attribute} {schema field : String} {n : Int}

theorem coercePayload_integerText (scalar : a.kind? = some .string)
    (received : -2 ^ 63 ≤ n ∧ n < 2 ^ 64) : a.coercePayload schema field (.integer n) =
      .ok (.string (Payload.integerText n)) := by
  by_cases short : n < 2 ^ 63
  · rw [Payload.integerText, if_pos short]
    exact coercePayload_written scalar ⟨by omega, by omega⟩
  · obtain ⟨k, rfl⟩ := Int.eq_ofNat_of_zero_le (show 0 ≤ n by omega)
    rw [Payload.integerText, if_neg short, Int.toNat_natCast]
    exact coercePayload_rounded scalar ⟨by omega, by omega⟩

end Attribute

/-- A string attribute gets the text of a payload integer exactly when it is less than two to the
63. Longer integers get the text of the nearest float, so that those with the same one get the same. -/
theorem Attribute.integers_written {a : Attribute} (scalar : a.kind? = some .string)
    (schema field : String) {n : Int} (received : -2 ^ 63 ≤ n ∧ n < 2 ^ 64) :
    (a.coercePayload schema field (.integer n) = .ok (.string (toString n)) ↔ n < 2 ^ 63) ∧
      (2 ^ 63 ≤ n → a.coercePayload schema field (.integer n) =
        .ok (.string (toString (nearestEven n.toNat 2048 * 2048) ++ ".0"))) ∧
      ∀ m : Int, -2 ^ 63 ≤ m ∧ m < 2 ^ 64 →
        (a.coercePayload schema field (.integer m) = a.coercePayload schema field (.integer n) ↔
          m = n ∨ 2 ^ 63 ≤ m ∧ 2 ^ 63 ≤ n ∧
            nearestEven m.toNat 2048 = nearestEven n.toNat 2048) := by
  rw [coercePayload_integerText scalar received]
  refine ⟨?_, ?_, ?_⟩
  · rw [Except.ok.injEq, Value.string.injEq, Payload.integerText_eq_iff]
  · intro long
    rw [Payload.integerText, if_neg (by omega)]
  · intro m range
    rw [coercePayload_integerText scalar range, Except.ok.injEq, Value.string.injEq,
      Payload.integerText_inj]

namespace Sample

def caseNumber : Attribute := ⟨"CaseNumber", false, .scalar .string⟩

theorem caseNumber_written :
    caseNumber.kind? = some .string ∧
      caseNumber.coercePayload "Case" "number" (.integer 9223372036854775807) =
        .ok (.string (toString (9223372036854775807 : Int))) ∧
      caseNumber.coercePayload "Case" "number" (.integer 9223372036854775809) =
        .ok (.string (toString (nearestEven 9223372036854775809 2048 * 2048) ++ ".0")) :=
  ⟨rfl, (Attribute.integers_written rfl "Case" "number" (by decide)).1.mpr (by decide),
    (Attribute.integers_written rfl "Case" "number" (by decide)).2.1 (by decide)⟩

/-- The two integers behind two to the 63 become one. -/
theorem caseNumber_merged :
    caseNumber.coercePayload "Case" "number" (.integer 9223372036854775809) =
        .ok (.string "9223372036854775808.0") ∧
      caseNumber.coercePayload "Case" "number" (.integer 9223372036854775810) =
        .ok (.string "9223372036854775808.0") := by
  decide +kernel

end Sample

end RecordQuery
