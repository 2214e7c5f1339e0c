import RecordQuery.Attribute.Coercion
import RecordQuery.Proofs.Binary64.Bounds
import RecordQuery.Proofs.Calendar.Forms

/-!
# Values held by attributes

What a field of an attribute can hold: null if it may, or a value of its own kind, which is finite
if it is a float. Coercion gives nothing else, and a value that is held survives the way out into a
payload and back exactly when it is legible.
-/

namespace RecordQuery

open Text.Numeral

/-- A field of the attribute can hold the value. -/
def Attribute.Holds (a : Attribute) (v : Value) : Prop :=
  match v.kind? with
  | none => a.nullable = true
  | some k => a.kind? = some k ∧ k.accepts v = true

namespace Kind

theorem kind_of_map {α : Type} {k : Kind} {read : Option α} {make : α → Value} {w : Value}
    (h : read.map make = some w)
    (own : ∀ a, read = some a → (make a).kind? = some k ∧ k.accepts (make a) = true) :
    w.kind? = some k ∧ k.accepts w = true := by
  obtain ⟨a, found, rfl⟩ := Option.map_eq_some_iff.mp h
  exact own a found

/-- A conversion gives a value of the kind, whatever it starts from. -/
theorem convert?_kind {k : Kind} {v w : Value} (h : k.convert? v = some w) :
    w.kind? = some k ∧ k.accepts w = true := by
  cases k with
  | string => cases v <;> cases h <;> exact ⟨rfl, rfl⟩
  | boolean =>
    cases v with
    | boolean b =>
      cases h
      exact ⟨rfl, rfl⟩
    | string s => exact kind_of_map h fun _ _ => ⟨rfl, rfl⟩
    | _ => cases h
  | integer =>
    cases v with
    | integer n =>
      cases h
      exact ⟨rfl, rfl⟩
    | float x => exact kind_of_map h fun _ _ => ⟨rfl, rfl⟩
    | string s => exact kind_of_map h fun _ _ => ⟨rfl, rfl⟩
    | _ => cases h
  | float =>
    cases v with
    | integer n =>
      cases h
      have lower := Int64.le_toInt n
      have upper := Int64.toInt_lt n
      exact ⟨rfl, Binary64.isFinite_ofInt ⟨by omega, by omega⟩⟩
    | float x =>
      simp only [convert?] at h
      split at h
      · next finite =>
        cases h
        exact ⟨rfl, finite⟩
      · cases h
    | string s =>
      apply kind_of_map h
      intro x read
      exact ⟨rfl, (Option.filter_eq_some_iff.mp read).2⟩
    | _ => cases h
  | date =>
    cases v with
    | date d =>
      cases h
      exact ⟨rfl, rfl⟩
    | datetime t =>
      cases h
      exact ⟨rfl, rfl⟩
    | string s => exact kind_of_map h fun _ _ => ⟨rfl, rfl⟩
    | _ => cases h
  | datetime =>
    cases v with
    | date d =>
      cases h
      exact ⟨rfl, rfl⟩
    | datetime t =>
      cases h
      exact ⟨rfl, rfl⟩
    | string s => exact kind_of_map h fun _ _ => ⟨rfl, rfl⟩
    | _ => cases h

theorem convert?_ne_null {k : Kind} {v w : Value} (h : k.convert? v = some w) : w ≠ .null := by
  rintro rfl
  cases (convert?_kind h).1

/-- Where no instant is given, the instants that come out have been read. -/
theorem legible_of_convert? {k : Kind} {v w : Value} (legible : v.Legible)
    (h : k.convert? v = some w) : w.Legible := by
  cases w with
  | datetime t =>
    obtain ⟨rfl⟩ := (convert?_kind h).1
    cases v with
    | date d =>
      cases h
      exact Instant.legible_ofDate d
    | datetime u =>
      cases h
      exact legible
    | string s =>
      obtain ⟨u, read, same⟩ := Option.map_eq_some_iff.mp h
      cases same
      exact Instant.legible_of_read? read
    | _ => cases h
  | _ => trivial

/-- A value of the kind is its own conversion. -/
theorem convert?_self {k : Kind} {v : Value} (own : v.kind? = some k) (ok : k.accepts v = true) :
    k.convert? v = some v := by
  cases v with
  | null => cases own
  | float x =>
    cases own
    have finite : x.isFinite = true := ok
    simp only [convert?, finite, if_true]
  | _ =>
    cases own
    rfl

/-- What a payload carries of a value of the kind is converted to what the text of the value
shows. -/
theorem convert?_toPayload {k : Kind} {v : Value} (own : v.kind? = some k)
    (ok : k.accepts v = true) :
    ∃ u, v.toPayload.scalar? = some u ∧ u.isNull = false ∧ k.convert? u = some v.shown := by
  cases v with
  | null => cases own
  | string s =>
    cases own
    exact ⟨.string s, rfl, rfl, rfl⟩
  | boolean b =>
    cases own
    exact ⟨.boolean b, rfl, rfl, rfl⟩
  | integer n =>
    cases own
    refine ⟨.integer n, ?_, rfl, rfl⟩
    simp only [Value.toPayload, Payload.scalar?, narrow_toInt, Option.elim_some]
  | float x =>
    cases own
    have finite : x.isFinite = true := ok
    refine ⟨.float x, ?_, rfl, ?_⟩
    · simp only [Value.toPayload, finite, if_true, Payload.scalar?]
    · simp only [convert?, finite, if_true, Value.shown]
  | date d =>
    cases own
    refine ⟨.string (Value.date d).literal, rfl, rfl, ?_⟩
    have read := d.read?_text
    simp only [convert?, Value.literal, Value.literalText, String.toList_ofList, read,
      Option.map_some, Value.shown]
  | datetime t =>
    cases own
    refine ⟨.string (Value.datetime t).literal, rfl, rfl, ?_⟩
    have read := t.read?_text
    simp only [convert?, Value.literal, Value.literalText, String.toList_ofList, read,
      Option.map_some, Value.shown]

end Kind

namespace Attribute

variable {a : Attribute} {schema field : String} {v w : Value}

/-- Of a value that is there, coercion gives what the kind converts it to. -/
theorem coerce_present_iff {k : Kind} (scalar : a.kind? = some k) (present : v.isNull = false) :
    a.coerce schema field v = .ok w ↔ k.convert? v = some w := by
  simp only [coerce, scalar, Option.bind_some, present, Bool.false_eq_true, if_false]
  split
  · next found => simp [found]
  · next found => simp [found]

/-- Besides null, coercion gives what the kind converts to. -/
theorem coerce_eq_ok_iff {k : Kind} (scalar : a.kind? = some k) (present : w ≠ .null) :
    a.coerce schema field v = .ok w ↔ k.convert? v = some w := by
  cases v with
  | null =>
    have never : k.convert? .null ≠ some w := by cases k <;> nofun
    refine iff_of_false ?_ never
    cases nullable : a.nullable <;> simp [coerce, Value.isNull, Value.kind?, nullable, present.symm]
  | _ => exact coerce_present_iff scalar rfl

theorem coercePayload_short {n : Int} (short : InRange n) :
    a.coercePayload schema field (.integer n) =
      a.coerce schema field (.integer (Int64.ofInt n)) := by
  rw [coercePayload, Payload.scalar?, narrow?, if_pos short]
  rfl

theorem coercePayload_long {n : Int} (long : ¬ InRange n) :
    a.coercePayload schema field (.integer n) = a.coerce schema field (.float (.ofInt n)) := by
  rw [coercePayload, Payload.scalar?, narrow?, if_neg long]
  rfl

theorem holds_of_coerce (h : a.coerce schema field v = .ok w) : a.Holds w := by
  unfold coerce at h
  split at h
  · split at h
    · next nullable =>
      cases h
      exact nullable
    · cases h
  · split at h
    · next converted =>
      cases h
      obtain ⟨k, kind, conversion⟩ := Option.bind_eq_some_iff.mp converted
      obtain ⟨own, ok⟩ := Kind.convert?_kind conversion
      rw [Holds, own]
      exact ⟨kind, ok⟩
    · cases h

theorem holds_of_coercePayload {p : Payload} (h : a.coercePayload schema field p = .ok w) :
    a.Holds w := by
  unfold coercePayload at h
  split at h
  · exact holds_of_coerce h
  · cases h

theorem legible_of_coercePayload {p : Payload} (h : a.coercePayload schema field p = .ok w) :
    w.Legible := by
  unfold coercePayload at h
  split at h
  · next v carried =>
    have plain : v.Legible := by
      cases v with
      | datetime t =>
        cases p with
        | integer n =>
          rw [Payload.scalar?] at carried
          cases narrowed : narrow? n <;> rw [narrowed] at carried <;> cases carried
        | _ => cases carried
      | _ => trivial
    cases w with
    | datetime t =>
      obtain ⟨scalar, _⟩ : a.kind? = some .datetime ∧ _ := holds_of_coerce h
      have present : Value.datetime t ≠ .null := nofun
      exact Kind.legible_of_convert? plain ((coerce_eq_ok_iff scalar present).mp h)
    | _ => trivial
  · cases h

/-- What is held is its own coercion. -/
theorem Holds.coerce (h : a.Holds v) (schema field : String) :
    a.coerce schema field v = .ok v := by
  cases kind : v.kind? with
  | none =>
    rw [Holds, kind] at h
    cases v with
    | null =>
      have nullable : a.nullable = true := h
      simp only [Attribute.coerce, nullable]
      rfl
    | _ => cases kind
  | some k =>
    rw [Holds, kind] at h
    obtain ⟨declared, ok⟩ := h
    have present : v ≠ .null := by
      rintro rfl
      cases kind
    exact (coerce_eq_ok_iff declared present).mpr (Kind.convert?_self kind ok)

/-- What is held comes back from its payload as its text shows it. -/
theorem Holds.coercePayload (h : a.Holds v) (schema field : String) :
    a.coercePayload schema field v.toPayload = .ok v.shown := by
  cases kind : v.kind? with
  | none =>
    cases v with
    | null => exact h.coerce schema field
    | _ => cases kind
  | some k =>
    rw [Holds, kind] at h
    obtain ⟨declared, ok⟩ := h
    obtain ⟨u, carried, present, converted⟩ := Kind.convert?_toPayload kind ok
    simp only [Attribute.coercePayload, carried]
    exact (coerce_present_iff declared present).mpr converted

end Attribute

namespace Sample

def startAttribute : Attribute := ⟨"Start", false, .scalar .datetime⟩

end Sample

end RecordQuery
