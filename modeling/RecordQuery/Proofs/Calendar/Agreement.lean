import Mathlib.Data.List.TakeWhile
import RecordQuery.Proofs.Attribute.Holds
import RecordQuery.Proofs.Calendar.Forms

/-!
# Dates and instants are read from the same texts

A date is read with the bare date tried first, an instant with the bare date tried last. The order
does not matter: every other form goes on behind its date, and all forms find the same date at the
start of a text, so a text that is a bare date is nothing else.
-/

namespace RecordQuery

open Calendar Text Text.Numeral

namespace Calendar

variable {width n : Nat} {s rest : List Char} {d : Date}

/-! ### The date at the start of a text -/

/-- Digits of a fixed number start the text, so the loose forms have no white space to skip, and
they read the same digits. -/
theorem readDigits?_of_exactly (positive : 0 < width) (read : readExactly? width s = some (n, rest)) :
    readDigits? width s = some (n, rest) ∧ ∃ c tail, s = c :: tail ∧ c.isDigit = true := by
  simp only [readExactly?, Option.ite_none_right_eq_some, List.all_eq_true] at read
  obtain ⟨⟨long, all⟩, found⟩ := read
  have whole : (s.take width).takeWhile Char.isDigit = s.take width :=
    List.takeWhile_eq_self_iff.mpr all
  have filled : s.take width ≠ [] := List.ne_nil_of_length_pos (by omega)
  refine ⟨?_, ?_⟩
  · rw [readDigits?, whole, if_neg filled, long]
    exact found
  · obtain ⟨c, tail, front⟩ := List.exists_cons_of_ne_nil filled
    have digit : c.isDigit = true := all c (front ▸ List.mem_cons_self)
    refine ⟨c, tail ++ s.drop width, ?_, digit⟩
    rw [← List.cons_append, ← front, List.take_append_drop]

theorem readYear?_of_exactly (read : readExactly? 4 s = some (n, rest)) :
    readYear? s = some ((n : Int), rest) := by
  obtain ⟨digits, c, tail, rfl, digit⟩ := readDigits?_of_exactly (by decide) read
  rw [readYear?_digit digit, digits, Option.map_some]

theorem readTwo?_of_exactly (read : readExactly? 2 s = some (n, rest)) :
    readTwo? s = some (n, rest) := by
  obtain ⟨digits, c, tail, rfl, digit⟩ := readDigits?_of_exactly (by decide) read
  rw [readTwo?, skipBlank_cons (isBlank_of_isDigit digit), digits]

/-- A date in the strict form is the same date in the loose form. -/
theorem looseDate?_of_strict (read : strictDate? s = some (d, rest)) :
    looseDate? s = some (d, rest) := by
  simp only [strictDate?, Option.bind_eq_bind, Option.bind_eq_some_iff] at read
  obtain ⟨⟨year, s₁⟩, readYear, s₂, hyphen, ⟨month, s₃⟩, readMonth, s₄, hyphen', ⟨day, s₅⟩, readDay,
    date, valid, found⟩ := read
  simp only [looseDate?, Option.bind_eq_bind, readYear?_of_exactly readYear, Option.bind_some,
    hyphen, readTwo?_of_exactly readMonth, hyphen', readTwo?_of_exactly readDay, valid]
  exact found

/-! ### Bare dates -/

/-- The strict form goes on behind the date. -/
theorem strictInstant?_bare (bare : looseDate? s = some (d, [])) : strictInstant? s = none := by
  rw [strictInstant?]
  cases strict : strictDate? s with
  | none => rfl
  | some found =>
    obtain ⟨date, rest⟩ := found
    have same := bare.symm.trans (looseDate?_of_strict strict)
    cases same
    rfl

/-- The loose forms with a time need an hour behind the date. -/
theorem looseLocal?_bare (bare : looseDate? s = some (d, [])) (separator : Separator) :
    looseLocal? separator s = none := by
  rw [looseLocal?, bare]
  cases separator <;> rfl

/-- A bare date is the midnight at its start, and no form that is tried before takes it for another
instant. -/
theorem read?_bare (bare : bareDate? (trim s) = some d) : Instant.read? s = some (.ofDate d) := by
  have whole : looseDate? (trim s) = some (d, []) := complete?_eq_some.mp bare
  have untimed := looseLocal?_bare whole
  simp only [Instant.read?, strictInstant?_bare whole, withOffset?, withoutOffset?, untimed, bare]
  rfl

end Calendar

/-- A date is read from the texts that an instant is read from, and it is the date of that instant
in UTC. -/
theorem Date.read?_eq (s : List Char) : Date.read? s = (Instant.read? s).map Instant.date := by
  rw [Date.read?]
  cases bare : bareDate? (trim s) with
  | none => rfl
  | some d =>
    rw [read?_bare bare]
    rfl

/-! ### Attributes -/

/-- A date is what there is of an instant for the kinds of attributes too. -/
theorem Kind.convert?_date_eq_some {v w : Value} : Kind.date.convert? v = some w ↔
    ∃ t, Kind.datetime.convert? v = some (.datetime t) ∧ w = .date t.date := by
  cases v with
  | string s =>
    simp only [convert?, Date.read?_eq, Option.map_map, Option.map_eq_some_iff, Value.datetime.injEq,
      exists_eq_right, Function.comp_apply, eq_comm (b := w)]
  | date d => simp [convert?, Instant.ofDate, eq_comm]
  | datetime t => simp [convert?, eq_comm]
  | _ => simp [convert?]

namespace Attribute

/-- The one outcome is the date of the other, and there is one exactly if there is the other. -/
structure Truncates (date datetime : Except Error Value) : Prop where
  together : (∃ w, date = .ok w) ↔ ∃ w, datetime = .ok w
  truncated (w : Value) : date = .ok w ↔ ∃ t, datetime = .ok (.datetime t) ∧ w = .date t.date

variable {a b : Attribute} {schema field schema' field' : String} {v : Value}

theorem truncates_coerce (date : a.kind? = some .date) (datetime : b.kind? = some .datetime)
    (there : v ≠ .null) : Truncates (a.coerce schema field v) (b.coerce schema' field' v) := by
  have present : v.isNull = false := by
    cases v with
    | null => exact absurd rfl there
    | _ => rfl
  have truncated (w : Value) : a.coerce schema field v = .ok w ↔
      ∃ t, b.coerce schema' field' v = .ok (.datetime t) ∧ w = .date t.date := by
    simp only [coerce_present_iff date present, coerce_present_iff datetime present,
      Kind.convert?_date_eq_some]
  refine ⟨⟨?_, ?_⟩, truncated⟩
  · intro taken
    obtain ⟨w, coerced⟩ := taken
    obtain ⟨t, coerced', _⟩ := (truncated w).mp coerced
    exact ⟨_, coerced'⟩
  · intro taken
    obtain ⟨w, coerced⟩ := taken
    have converted := (coerce_present_iff datetime present).mp coerced
    obtain ⟨own, _⟩ := Kind.convert?_kind converted
    cases w with
    | datetime t => exact ⟨_, (truncated _).mpr ⟨t, coerced, rfl⟩⟩
    | _ => cases own

theorem truncates_coercePayload (date : a.kind? = some .date) (datetime : b.kind? = some .datetime)
    {p : Payload} (there : p ≠ .null) :
    Truncates (a.coercePayload schema field p) (b.coercePayload schema' field' p) := by
  simp only [coercePayload]
  cases scalar : p.scalar? with
  | some v =>
    refine truncates_coerce date datetime ?_
    rintro rfl
    cases p with
    | null => exact there rfl
    | integer n =>
      rw [Payload.scalar?] at scalar
      cases narrowed : narrow? n <;> rw [narrowed] at scalar <;> cases scalar
    | _ => cases scalar
  | none => exact ⟨by simp, by simp⟩

/-- The readers of dates and of instants agree on every text: none is read by one of them alone, and
the date is that of the instant after its offset is taken off. So an attribute for dates takes
exactly what an attribute for instants takes, from code and from payloads, and gives its date. -/
theorem dates_truncate (date : a.kind? = some .date) (datetime : b.kind? = some .datetime)
    (schema field schema' field' : String) :
    (∀ s, Date.read? s = (Instant.read? s).map Instant.date) ∧
    (∀ {t : Instant} {before u after : List Char}, t.Form u → (∀ c ∈ before, isBlank c = true) →
      (∀ c ∈ after, isBlank c = true) → Date.read? (before ++ u ++ after) = some t.date) ∧
    (∀ v : Value, v ≠ .null →
      Truncates (a.coerce schema field v) (b.coerce schema' field' v)) ∧
    ∀ p : Payload, p ≠ .null →
      Truncates (a.coercePayload schema field p) (b.coercePayload schema' field' p) := by
  refine ⟨Date.read?_eq, ?_, fun _ => truncates_coerce date datetime,
    fun _ => truncates_coercePayload date datetime⟩
  intro t before u after form before_blank after_blank
  rw [Date.read?_eq, form.read? (form.trim before_blank after_blank)]
  rfl

end Attribute

namespace Sample

def sinceAttribute : Attribute := ⟨"Since", false, .scalar .date⟩

def seenAttribute : Attribute := ⟨"Seen", true, .scalar .datetime⟩

/-- On the first of January in the east it is still the old year in UTC. -/
theorem sinceAttribute_truncates :
    sinceAttribute.kind? = some .date ∧ seenAttribute.kind? = some .datetime ∧
      sinceAttribute.coercePayload "User" "since" (.string "2017-01-01 05:29:60.5+0530") =
        .ok (.date ⟨2016, 12, 31, by decide⟩) := by
  have seen : seenAttribute.coercePayload "User" "seen" (.string "2017-01-01 05:29:60.5+0530") =
    .ok (.datetime Instant.yearEndLeap) := rfl
  have agree := Attribute.dates_truncate (a := sinceAttribute) (b := seenAttribute) rfl rfl
    "User" "since" "User" "seen"
  have truncates := agree.2.2.2 (.string "2017-01-01 05:29:60.5+0530") (by nofun)
  exact ⟨rfl, rfl, (truncates.truncated _).mpr ⟨_, seen, rfl⟩⟩

end Sample

end RecordQuery
