import RecordQuery.Proofs.Attribute.Holds
import RecordQuery.Proofs.Condition.WellTyped

/-!
# Kinds agree with one another

What a kind converts values into, which values it takes as they are, and which other kinds can feed
it are told in three tables. They fit: a value that was coerced stays what it is, is written and
compared without a further check failing, and is taken by every kind that can be fed from its own.
Conversely a kind that takes all values of another can be fed from it, so that a list of values and
a subquery of the same kind are operands for the same attributes.
-/

namespace RecordQuery

/-! ### The three tables -/

namespace Kind

variable {k other : Kind} {v w : Value}

/-- Some value of the kind. -/
def someValue : Kind → Value
  | string => .string ""
  | boolean => .boolean false
  | integer => .integer 0
  | float => .float (.ofMagnitude false 0)
  | date => .date ⟨1970, 1, 1, by decide⟩
  | datetime => .datetime (.ofDate ⟨1970, 1, 1, by decide⟩)

theorem kind?_someValue (k : Kind) : k.someValue.kind? = some k := by
  cases k <;> rfl

theorem accepts_someValue (k : Kind) : k.accepts k.someValue = true := by
  cases k <;> rfl

/-- A kind that takes the chosen value of another can be fed from it. The float here is a whole
number, so that only its kind can be the reason to refuse it. -/
theorem compatible_of_accepts_someValue (h : other.accepts k.someValue = true) :
    other.compatible k = true := by
  cases k <;> cases other <;> first | rfl | cases h

/-- A kind can be fed from another exactly when it takes all of the values that the other takes of
its own. -/
theorem compatible_iff : other.compatible k = true ↔
    ∀ w, w.kind? = some k → k.accepts w = true → other.accepts w = true := by
  constructor
  · intro feeds w own ok
    simp only [compatible, Bool.or_eq_true, Bool.and_eq_true, beq_iff_eq] at feeds
    rcases feeds with rfl | ⟨rfl, rfl⟩
    · exact ok
    · cases w with
      | integer n => rfl
      | _ => cases own
  · intro all
    exact compatible_of_accepts_someValue (all _ k.kind?_someValue k.accepts_someValue)

/-- Integers for floats are all that a kind takes beyond its own values. -/
theorem own_or_widened (ok : k.accepts v = true) :
    v.kind? = some k ∨ k = float ∧ ∃ n, v = .integer n := by
  cases v with
  | null => exact absurd rfl (present_of_accepts ok)
  | integer n =>
    cases k with
    | integer => exact .inl rfl
    | float => exact .inr ⟨rfl, n, rfl⟩
    | _ => cases ok
  | _ => cases k <;> first | exact .inl rfl | cases ok

/-- Whatever a kind takes as it is, it also converts. -/
theorem exists_convert? (ok : k.accepts v = true) : ∃ w, k.convert? v = some w := by
  rcases own_or_widened ok with own | ⟨rfl, n, rfl⟩
  · exact ⟨v, convert?_self own ok⟩
  · exact ⟨.float (.ofInt n.toInt), rfl⟩

end Kind

/-! ### Attributes -/

namespace Attribute

variable {a : Attribute} {k : Kind} {v w : Value}

/-- What holds of a value that came out of coercion: it is null or of the kind, it is left alone
from then on, and neither its literal nor a comparison with it is refused. -/
structure Settles (a : Attribute) (k : Kind) (schema field : String) (w : Value) : Prop where
  kind : w = .null ∧ a.nullable = true ∨
    w.kind? = some k ∧ ∀ other : Kind, other.compatible k = true → other.accepts w = true
  again : a.coerce schema field w = .ok w
  literal : a.literal schema field w = .ok w.literal
  equated (p : AttributePath) : p.toAttribute = a →
    p.compare (.relation .equal) (.literal w) = .ok (.compare p (.relation .equal) (.literal w))

theorem holds_iff (scalar : a.kind? = some k) : a.Holds w ↔
    w = .null ∧ a.nullable = true ∨ w.kind? = some k ∧ k.accepts w = true := by
  cases own : w.kind? with
  | none =>
    have null : w = .null := by
      cases w with
      | null => rfl
      | _ => cases own
    simp [Holds, null, Value.kind?]
  | some j =>
    have present : w ≠ .null := by
      rintro rfl
      cases own
    simp only [Holds, own, scalar, present, false_and, false_or, Option.some.injEq]
    constructor
    · rintro ⟨rfl, ok⟩
      exact ⟨rfl, ok⟩
    · rintro ⟨rfl, ok⟩
      exact ⟨rfl, ok⟩

theorem Holds.settles (scalar : a.kind? = some k) (held : a.Holds w) (schema field : String) :
    a.Settles k schema field w := by
  rcases (holds_iff scalar).mp held with ⟨rfl, nullable⟩ | ⟨own, ok⟩
  · refine ⟨.inl ⟨rfl, nullable⟩, held.coerce schema field, ?_, fun _ _ => rfl⟩
    simp only [literal, nullable]
    rfl
  · have known : w.isNull = false := by
      rw [Value.isNull, own]
      rfl
    refine ⟨.inr ⟨own, fun other compatible => Kind.compatible_iff.mp compatible w own ok⟩,
      held.coerce schema field, ?_, ?_⟩
    · have taken : a.kind?.any (·.accepts w) = true := by
        rw [scalar]
        exact ok
      simp only [literal, known, taken]
      rfl
    · rintro p rfl
      have same : p.kind = k := Option.some.inj scalar
      have admitted : (Comparator.relation .equal).admits p.kind (.literal w) = true := by
        rw [same]
        cases w with
        | null => rfl
        | _ => exact ok
      rw [AttributePath.compare, if_pos admitted]

/-- The values of the kind are what coercion gives besides null. -/
theorem exists_coerce_iff (scalar : a.kind? = some k) (schema field : String) :
    (w ≠ .null ∧ ∃ v, a.coerce schema field v = .ok w) ↔
      w.kind? = some k ∧ k.accepts w = true := by
  constructor
  · rintro ⟨present, v, coerced⟩
    rcases (holds_iff scalar).mp (holds_of_coerce coerced) with ⟨null, _⟩ | held
    · exact absurd null present
    · exact held
  · rintro ⟨own, ok⟩
    have present := Kind.present_of_accepts ok
    exact ⟨present, w, (coerce_eq_ok_iff scalar present).mpr (Kind.convert?_self own ok)⟩

end Attribute

/-! ### Lists and subqueries -/

namespace AttributePath

variable {p : AttributePath} {c : Comparator}

theorem exists_compare_iff {o : Operand} :
    (∃ e, p.compare c o = .ok e) ↔ c.admits p.kind o = true := by
  rw [compare]
  cases c.admits p.kind o <;> simp

theorem compare_list_iff (membership : c = .oneOf ∨ c = .noneOf) {vs : List Value} :
    (∃ e, p.compare c (.list vs) = .ok e) ↔ vs ≠ [] ∧ ∀ v ∈ vs, p.kind.accepts v = true := by
  rw [exists_compare_iff]
  rcases membership with rfl | rfl <;>
    simp [Comparator.admits, Comparator.onlyStrings, Comparator.takesList]

theorem compare_subquery_iff (membership : c = .oneOf ∨ c = .noneOf) {s : Subquery} :
    (∃ e, p.compare c (.subquery s) = .ok e) ↔ p.kind.compatible s.column.kind = true := by
  rw [exists_compare_iff]
  rcases membership with rfl | rfl <;>
    simp [Comparator.admits, Comparator.onlyStrings, Comparator.isMembership]

end AttributePath

/-- Whatever coercion gives is settled, and all that the kind takes is coerced. The kinds that take
every value that can be given are those that can be fed from the kind, so the attributes that may be
compared with lists of such values are the ones that may be compared with a subquery of the kind. -/
theorem Attribute.coercion_settles {a : Attribute} {k : Kind} (scalar : a.kind? = some k)
    (schema field : String) :
    (∀ w, ((∃ v, a.coerce schema field v = .ok w) ∨
        ∃ p, a.coercePayload schema field p = .ok w) → a.Settles k schema field w) ∧
    (∀ v, k.accepts v = true → ∃ w, a.coerce schema field v = .ok w) ∧
    (∀ other : Kind, other.compatible k = true ↔
      ∀ w, (w ≠ .null ∧ ∃ v, a.coerce schema field v = .ok w) → other.accepts w = true) ∧
    ∀ (p : AttributePath) (c : Comparator) (s : Subquery), c = .oneOf ∨ c = .noneOf →
      s.column.kind = k →
      ((∃ e, p.compare c (.subquery s) = .ok e) ↔ ∀ vs : List Value, vs ≠ [] →
        (∀ w ∈ vs, w ≠ .null ∧ ∃ v, a.coerce schema field v = .ok w) →
          ∃ e, p.compare c (.list vs) = .ok e) := by
  simp only [exists_coerce_iff scalar]
  have feeds (other : Kind) : other.compatible k = true ↔
      ∀ w : Value, w.kind? = some k ∧ k.accepts w = true → other.accepts w = true := by
    simp only [Kind.compatible_iff, and_imp]
  refine ⟨?_, ?_, feeds, ?_⟩
  · rintro w (⟨v, coerced⟩ | ⟨p, coerced⟩)
    · exact (holds_of_coerce coerced).settles scalar schema field
    · exact (holds_of_coercePayload coerced).settles scalar schema field
  · intro v ok
    obtain ⟨w, converted⟩ := Kind.exists_convert? ok
    exact ⟨w, (coerce_eq_ok_iff scalar (Kind.convert?_ne_null converted)).mpr converted⟩
  · intro p c s membership kind
    simp only [AttributePath.compare_subquery_iff membership,
      AttributePath.compare_list_iff membership, kind, feeds]
    constructor
    · intro all vs filled own
      exact ⟨filled, fun v mem => all v (own v mem)⟩
    · intro all w own
      have alone := all [w] (List.cons_ne_nil _ _) (List.forall_mem_singleton.mpr own)
      exact alone.2 w List.mem_cons_self

namespace Sample

def sizeAttribute : Attribute := ⟨"Size", true, .scalar .float⟩

/-- An integer for a float attribute is widened, and stays so. -/
theorem sizeAttribute_settles :
    sizeAttribute.kind? = some .float ∧
      sizeAttribute.coerce "Account" "size" (.integer 3) = .ok (.float (.ofInt 3)) ∧
      sizeAttribute.Settles .float "Account" "size" (.float (.ofInt 3)) ∧
      Kind.integer.compatible .float = false := by
  have coerced : sizeAttribute.coerce "Account" "size" (.integer 3) = .ok (.float (.ofInt 3)) := rfl
  have settled := Attribute.coercion_settles (a := sizeAttribute) rfl "Account" "size"
  exact ⟨rfl, coerced, settled.1 _ (.inl ⟨_, coerced⟩), rfl⟩

end Sample

end RecordQuery
