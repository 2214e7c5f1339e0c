import RecordQuery.Proofs.Attribute.Holds
import RecordQuery.Proofs.Binary64.Conversions

/-!
# Integers from numbers and numerals

An integer attribute takes integers, floats that are whole, and numerals. A numeral of an integer of
64 bits is taken as it stands; any other is rounded to a float first, and only then asked whether it
is whole. What is taken is the number of the input exactly when this rounding changes nothing: when
the numeral is such an integer, or its number is that of some float.
-/

namespace RecordQuery

open Text.Numeral

variable {s : List Char} {q : ℚ} {i : Int64}

/-! ### Readers -/

theorem Text.Numeral.narrow?_eq_some {n : Int} : narrow? n = some i ↔ n = i.toInt := by
  constructor
  · intro narrow
    exact (toInt_of_narrow narrow).symm
  · rintro rfl
    exact narrow_toInt i

theorem Binary64.toInt64?_eq_some {x : Binary64} :
    x.toInt64? = some i ↔ x.number? = some (i.toInt : ℚ) := by
  simp only [toInt64?, Option.bind_eq_some_iff, narrow?_eq_some, toInt?_eq_some, exists_eq_right]

namespace Kind

/-- The text is an integer of 64 bits, or its number is that of some float. -/
def Precise (s : List Char) (q : ℚ) : Prop :=
  (∃ n, IntegerText s n ∧ InRange n) ∨ ∃ x : Binary64, x.number? = some q

theorem readInteger?_of_int64 {n : Int} (text : IntegerText s n) (range : InRange n) :
    readInteger? s = some i ↔ n = i.toInt := by
  have narrow : narrow? n = some (Int64.ofInt n) := if_pos range
  have read : readInt64? s = narrow? n := by
    rw [readInt64?, readSigned?_eq_some.mpr text, Option.bind_some]
  rw [← narrow?_eq_some, readInteger?, read, narrow]
  rfl

theorem readInteger?_of_float (denotes : Denotes s q)
    (other : ¬ ∃ n, IntegerText s n ∧ InRange n) :
    readInteger? s = some i ↔ ∃ x, Binary64.IsNearest q x ∧ x.number? = some (i.toInt : ℚ) := by
  have long : readInt64? s = none := by
    rw [readInt64?, Option.bind_eq_none_iff]
    intro n read
    exact if_neg fun range => other ⟨n, readSigned?_eq_some.mp read, range⟩
  obtain ⟨x, read, nearest⟩ := Binary64.exists_read? denotes
  have rounded : readInteger? s = x.toInt64? := by
    rw [readInteger?, long, read]
    rfl
  rw [rounded, Binary64.toInt64?_eq_some]
  constructor
  · exact fun whole => ⟨x, nearest, whole⟩
  · rintro ⟨y, near, whole⟩
    exact (nearest.number?_congr near).trans whole

theorem readInteger?_of_precise (denotes : Denotes s q) (precise : Precise s q) :
    readInteger? s = some i ↔ q = i.toInt := by
  by_cases int64 : ∃ n, IntegerText s n ∧ InRange n
  · obtain ⟨n, text, range⟩ := int64
    rw [readInteger?_of_int64 text range, denotes.unique text.denotes, Int.cast_inj]
  · obtain ⟨y, number⟩ := precise.resolve_left int64
    rw [readInteger?_of_float denotes int64]
    constructor
    · rintro ⟨x, nearest, whole⟩
      exact Option.some.inj ((nearest.eq_of_number? number).symm.trans whole)
    · rintro rfl
      exact ⟨y, Binary64.isNearest_of_number? number, number⟩

/-- Nothing but a decimal numeral is read as an integer. -/
theorem exists_denotes (found : readInteger? s = some i) : ∃ q, Denotes s q := by
  rw [readInteger?, Option.orElse_eq_some] at found
  rcases found with int64 | ⟨_, rounded⟩
  · obtain ⟨n, read, _⟩ := Option.bind_eq_some_iff.mp int64
    exact ⟨n, (readSigned?_eq_some.mp read).denotes⟩
  · obtain ⟨x, read, whole⟩ := Option.bind_eq_some_iff.mp rounded
    have finite : x.isFinite = true := by
      cases x with
      | finite _ _ => rfl
      | _ => cases whole
    exact Binary64.exists_denotes read finite

end Kind

/-! ### Attributes -/

/-- The number that a value is, or that its text denotes. -/
def Value.Denotes : Value → ℚ → Prop
  | integer n, q => q = n.toInt
  | float x, q => x.number? = some q
  | string s, q => Text.Numeral.Denotes (Kind.trimmed s) q
  | _, _ => False

/-- Numbers are taken as they are, and so are these texts. -/
def Value.Precise : Value → ℚ → Prop
  | string s, q => Kind.Precise (Kind.trimmed s) q
  | _, _ => True

def Payload.Denotes : Payload → ℚ → Prop
  | integer n, q => q = n
  | float x, q => (Value.float x).Denotes q
  | string s, q => (Value.string s).Denotes q
  | _, _ => False

def Payload.Precise : Payload → ℚ → Prop
  | string s, q => (Value.string s).Precise q
  | _, _ => True

/-- Integers arrive with 64 bits, with or without a sign. -/
def Payload.Received (p : Payload) : Prop :=
  ∀ n, p = .integer n → -2 ^ 63 ≤ n ∧ n < 2 ^ 64

/-- What is taken as an integer: it denotes one number; where that number is precise it is taken if
and only if it is an integer of 64 bits; where it is not, the nearest float decides, and the integer
that is taken is never the number. -/
structure Integral (denotes precise : ℚ → Prop) (result : Except Error Value) : Prop where
  denoted (i : Int64) : result = .ok (.integer i) → ∃ q, denotes q
  unique (q r : ℚ) : denotes q → denotes r → q = r
  kept (q : ℚ) (i : Int64) : denotes q → precise q → (result = .ok (.integer i) ↔ q = i.toInt)
  rounded (q : ℚ) (i : Int64) : denotes q → ¬ precise q → (result = .ok (.integer i) ↔
    ∃ x, Binary64.IsNearest q x ∧ x.number? = some (i.toInt : ℚ))
  preserved (q : ℚ) (i : Int64) : denotes q → result = .ok (.integer i) →
    (q = i.toInt ↔ precise q)

namespace Integral

variable {denotes precise : ℚ → Prop} {result : Except Error Value}

theorem of_number (always : ∀ q, precise q) (unique : ∀ q r, denotes q → denotes r → q = r)
    (denoted : ∀ i, result = .ok (.integer i) → denotes i.toInt)
    (kept : ∀ i : Int64, denotes i.toInt → result = .ok (.integer i)) :
    Integral denotes precise result where
  denoted i taken := ⟨_, denoted i taken⟩
  unique := unique
  kept q i number _ := by
    constructor
    · exact fun taken => unique q _ number (denoted i taken)
    · rintro rfl
      exact kept i number
  rounded q i _ rough := absurd (always q) rough
  preserved q i number taken := iff_of_true (unique q _ number (denoted i taken)) (always q)

theorem of_nothing (silent : ∀ q, ¬ denotes q) (refused : ∀ i, result ≠ .ok (.integer i)) :
    Integral denotes precise result where
  denoted i taken := absurd taken (refused i)
  unique q _ number := absurd number (silent q)
  kept q _ number := absurd number (silent q)
  rounded q _ number := absurd number (silent q)
  preserved q _ number := absurd number (silent q)

theorem of_text (s : List Char)
    (taken : ∀ i, result = .ok (.integer i) ↔ Kind.readInteger? s = some i) :
    Integral (Denotes s) (Kind.Precise s) result := by
  have rounded (q : ℚ) (i : Int64) (denotes : Denotes s q) (rough : ¬ Kind.Precise s q) :
      result = .ok (.integer i) ↔
        ∃ x, Binary64.IsNearest q x ∧ x.number? = some (i.toInt : ℚ) := by
    rw [taken]
    exact Kind.readInteger?_of_float denotes fun int64 => rough (.inl int64)
  have kept (q : ℚ) (i : Int64) (denotes : Denotes s q) (precise : Kind.Precise s q) :
      result = .ok (.integer i) ↔ q = i.toInt := by
    rw [taken]
    exact Kind.readInteger?_of_precise denotes precise
  refine ⟨fun i ok => Kind.exists_denotes ((taken i).mp ok), fun q r => Denotes.unique, kept,
    rounded, fun q i denotes ok => ⟨?_, fun precise => (kept q i denotes precise).mp ok⟩⟩
  intro same
  by_contra rough
  obtain ⟨x, _, number⟩ := (rounded q i denotes rough).mp ok
  exact rough (.inr ⟨x, same ▸ number⟩)

end Integral

namespace Attribute

variable {a : Attribute} {schema field : String}

theorem coerce_int64_iff (scalar : a.kind? = some .integer) {n : Int64} :
    a.coerce schema field (.integer n) = .ok (.integer i) ↔ (i.toInt : ℚ) = n.toInt := by
  rw [coerce_eq_ok_iff (w := .integer i) scalar nofun, Int.cast_inj, Int64.toInt_inj]
  simp [Kind.convert?, eq_comm]

theorem coerce_float_iff (scalar : a.kind? = some .integer) {x : Binary64} :
    a.coerce schema field (.float x) = .ok (.integer i) ↔ x.number? = some (i.toInt : ℚ) := by
  rw [coerce_eq_ok_iff (w := .integer i) scalar nofun, ← Binary64.toInt64?_eq_some]
  simp [Kind.convert?]

theorem integral_coerce (scalar : a.kind? = some .integer) (v : Value) :
    Integral v.Denotes v.Precise (a.coerce schema field v) := by
  cases v with
  | integer n =>
    exact .of_number (fun _ => trivial) (fun q r first second => first.trans second.symm)
      (fun i => (coerce_int64_iff scalar).mp) (fun i => (coerce_int64_iff scalar).mpr)
  | float x =>
    exact .of_number (fun _ => trivial)
      (fun q r first second => Option.some.inj (first.symm.trans second))
      (fun i => (coerce_float_iff scalar).mp) (fun i => (coerce_float_iff scalar).mpr)
  | string s =>
    refine .of_text _ fun i => ?_
    rw [coerce_eq_ok_iff (w := .integer i) scalar nofun]
    simp [Kind.convert?]
  | _ =>
    refine .of_nothing (fun _ => False.elim) fun i taken => ?_
    rw [coerce_eq_ok_iff (w := .integer i) scalar nofun] at taken
    cases taken

/-- No integer that is too long for 64 bits with a sign is taken for a shorter one. -/
theorem coercePayload_integer_iff (scalar : a.kind? = some .integer) {n : Int}
    (range : -2 ^ 63 ≤ n ∧ n < 2 ^ 64) :
    a.coercePayload schema field (.integer n) = .ok (.integer i) ↔ (i.toInt : ℚ) = n := by
  rw [Int.cast_inj]
  by_cases short : InRange n
  · have same := narrow?_eq_some.mp (if_pos short : narrow? n = some (Int64.ofInt n))
    rw [coercePayload_short short, coerce_int64_iff scalar, Int.cast_inj, ← same]
  · have above : 2 ^ 63 ≤ n := by
      unfold InRange at short
      omega
    obtain ⟨m, rfl⟩ := Int.eq_ofNat_of_zero_le (show 0 ≤ n by omega)
    have long : 2 ^ 63 ≤ m ∧ m < 2 ^ 64 := ⟨by omega, by omega⟩
    rw [coercePayload_long short, coerce_float_iff scalar, Binary64.number?_ofInt_long long,
      Option.some.injEq]
    have upper := i.toInt_lt
    have lower := le_nearestEven m 2048
    refine iff_of_false (fun number => ?_) (by omega)
    have same : ((nearestEven m 2048 * 2048 : Nat) : Int) = i.toInt := by exact_mod_cast number
    omega

theorem integral_coercePayload (scalar : a.kind? = some .integer) {p : Payload}
    (received : p.Received) : Integral p.Denotes p.Precise (a.coercePayload schema field p) := by
  cases p with
  | integer n =>
    have taken (i : Int64) : a.coercePayload schema field (.integer n) = .ok (.integer i) ↔
        (i.toInt : ℚ) = n := coercePayload_integer_iff scalar (received n rfl)
    exact .of_number (fun _ => trivial) (fun q r first second => first.trans second.symm)
      (fun i => (taken i).mp) (fun i => (taken i).mpr)
  | float x => exact integral_coerce scalar (.float x)
  | string s => exact integral_coerce scalar (.string s)
  | null => exact integral_coerce scalar .null
  | boolean b => exact integral_coerce scalar (.boolean b)
  | list _ => exact .of_nothing (fun _ => False.elim) nofun
  | mapping _ => exact .of_nothing (fun _ => False.elim) nofun

end Attribute

/-- An integer attribute takes integers of 64 bits and nothing else, from code and from payloads,
but for texts that are neither such an integer nor the number of a float. -/
theorem Attribute.integers_taken {a : Attribute} (scalar : a.kind? = some .integer)
    (schema field : String) :
    (∀ v, Integral v.Denotes v.Precise (a.coerce schema field v)) ∧
      ∀ p : Payload, p.Received →
        Integral p.Denotes p.Precise (a.coercePayload schema field p) :=
  ⟨integral_coerce scalar, fun _ => integral_coercePayload scalar⟩

namespace Sample

def itemCount : Attribute := ⟨"Count__c", false, .scalar .integer⟩

theorem itemCount_taken :
    itemCount.kind? = some .integer ∧
      itemCount.coercePayload "Test" "field" (.string " 7.50e1 ") = .ok (.integer 75) ∧
      Integral (Payload.string " 7.50e1 ").Denotes (Payload.string " 7.50e1 ").Precise
        (itemCount.coercePayload "Test" "field" (.string " 7.50e1 ")) :=
  ⟨rfl, by decide +kernel, (Attribute.integers_taken rfl _ _).2 _ nofun⟩

/-- One below the least integer, and a little less than one. -/
theorem itemCount_rounded :
    (itemCount.coerce "Test" "field" (.string "-9223372036854775809") =
        .ok (.integer (-9223372036854775808)) ∧
      (Value.string "-9223372036854775809").Denotes (-9223372036854775809)) ∧
    itemCount.coerce "Test" "field" (.string "0.99999999999999999999") = .ok (.integer 1) ∧
      (Value.string "0.99999999999999999999").Denotes (99999999999999999999 / 10 ^ 20) := by
  have below : readSigned? (Kind.trimmed "-9223372036854775809") = some (-9223372036854775809) := by
    decide +kernel
  have parts : parts? (Kind.trimmed "0.99999999999999999999") =
      some ⟨false, ['0'], List.replicate 20 '9', 0⟩ := by decide +kernel
  refine ⟨⟨by decide +kernel, ?_⟩, by decide +kernel, _, parts?_eq_some.mp parts, ?_⟩
  · exact_mod_cast (readSigned?_eq_some.mp below).denotes
  · have whole : value ['0'] = 0 := by decide
    have fraction : value (List.replicate 20 '9') = 99999999999999999999 := by decide +kernel
    simp only [Parts.number, Parts.magnitude, whole, fraction, List.length_replicate]
    norm_num

end Sample

end RecordQuery
