import RecordQuery.Calendar.Reading
import RecordQuery.Proofs.Text.Digits
import RecordQuery.Value.Literal

/-!
# Legible clocks

A leap second at the end of a minute is shown as the second 60. Inside a minute it is shown as the
second after it, so its text is that of another instant. Reading never gives such a clock.
-/

namespace RecordQuery

open Calendar Text Text.Numeral

/-! ### Clocks -/

namespace Clock

/-- Leap seconds stand at the end of a minute only. -/
def Legible (c : Clock) : Prop := 1000000000 ≤ c.nano → c.second % 60 = 59

instance (c : Clock) : Decidable c.Legible := inferInstanceAs (Decidable (_ → _))

/-- The clock that the face is read as. A leap second inside a minute passes for the second after
it. -/
def shown (c : Clock) : Clock :=
  if inside : 1000000000 ≤ c.nano ∧ c.second % 60 ≠ 59 then
    { second := c.second + 1
      nano := c.nano - 1000000000
      second_lt := by
        have := c.second_lt
        omega
      nano_lt := by
        have := c.nano_lt
        omega }
  else c

variable {c d : Clock}

theorem inside_of_not_legible (h : ¬ c.Legible) : 1000000000 ≤ c.nano ∧ c.second % 60 ≠ 59 := by
  unfold Legible at h
  omega

theorem shown_of_legible (h : c.Legible) : c.shown = c :=
  dif_neg fun inside => inside.2 (h inside.1)

theorem second_shown (h : ¬ c.Legible) : c.shown.second = c.second + 1 := by
  rw [shown, dif_pos (inside_of_not_legible h)]

theorem nano_shown (h : ¬ c.Legible) : c.shown.nano = c.nano - 1000000000 := by
  rw [shown, dif_pos (inside_of_not_legible h)]

theorem shown_eq_self_iff : c.shown = c ↔ c.Legible := by
  refine ⟨fun same => Decidable.byContradiction fun illegible => ?_, shown_of_legible⟩
  have later := second_shown illegible
  rw [same] at later
  omega

theorem legible_shown (c : Clock) : c.shown.Legible := by
  by_cases legible : c.Legible
  · rwa [shown_of_legible legible]
  · intro leap
    have upper := c.nano_lt
    rw [nano_shown legible] at leap
    omega

/-- Two clocks that are shown alike are the same, unless only one of them is legible. -/
theorem eq_of_shown_eq (same : c.shown = d.shown) (alike : c.Legible ↔ d.Legible) : c = d := by
  by_cases legible : c.Legible
  · rwa [shown_of_legible legible, shown_of_legible (alike.mp legible)] at same
  · have other := mt alike.mpr legible
    have first := (inside_of_not_legible legible).1
    have second := (inside_of_not_legible other).1
    apply Clock.ext
    · have seconds := congrArg Clock.second same
      rw [second_shown legible, second_shown other] at seconds
      exact Nat.add_right_cancel seconds
    · have nanos := congrArg Clock.nano same
      rw [nano_shown legible, nano_shown other] at nanos
      omega

theorem face_shown (c : Clock) : c.shown.face = c.face := by
  by_cases legible : c.Legible
  · rw [shown_of_legible legible]
  · obtain ⟨leap, early⟩ := inside_of_not_legible legible
    have upper := c.nano_lt
    have short : ¬ 1000000000 ≤ c.nano - 1000000000 := by omega
    simp only [face, isLeap, second_shown legible, nano_shown legible, leap, short, decide_true,
      decide_false, if_true, Bool.false_eq_true, if_false, Prod.mk.injEq, and_true]
    omega

theorem text_shown (c : Clock) : c.shown.text = c.text := by
  rw [text, face_shown, text]

theorem Legible.turn (h : c.Legible) (minutes : Int) : (c.turn minutes).Legible := by
  intro leap
  have last := h leap
  simp only [Clock.turn]
  omega

end Clock

namespace Instant

variable {t u : Instant}

def Legible (t : Instant) : Prop := t.clock.Legible

instance (t : Instant) : Decidable t.Legible := inferInstanceAs (Decidable t.clock.Legible)

def shown (t : Instant) : Instant := ⟨t.date, t.clock.shown⟩

theorem shown_of_legible (h : t.Legible) : t.shown = t := by
  rw [shown, Clock.shown_of_legible h]

theorem shown_eq_self_iff : t.shown = t ↔ t.Legible :=
  ⟨fun same => Clock.shown_eq_self_iff.mp (congrArg clock same), shown_of_legible⟩

/-- The first second of a year as a leap second, with half of its extra second gone. -/
def overrun : Instant := ⟨⟨2024, 1, 1, by decide⟩, (Clock.of? 0 0 0 1500000000).get rfl⟩

/-- The same time in the second after. -/
def carried : Instant := ⟨⟨2024, 1, 1, by decide⟩, (Clock.of? 0 0 1 500000000).get rfl⟩

example : ¬ overrun.Legible ∧ overrun.shown = carried := by decide

theorem legible_shown (t : Instant) : t.shown.Legible := t.clock.legible_shown

theorem eq_of_shown_eq (same : t.shown = u.shown) (alike : t.Legible ↔ u.Legible) : t = u := by
  cases t
  cases u
  obtain ⟨date, clock⟩ := Instant.mk.inj same
  cases date
  cases Clock.eq_of_shown_eq clock alike
  rfl

theorem text_shown (t : Instant) : t.shown.text = t.text := by
  rw [text, shown, Clock.text_shown, text]

end Instant

/-! ### Readings -/

namespace Calendar

variable {nano : Nat} {s rest : List Char} {c : Clock} {t : Instant}

theorem nanoseconds_lt {ds : List Char} (all : ∀ c ∈ ds, c.isDigit = true) :
    nanoseconds ds < 1000000000 := by
  have front : value (ds.take 9) < tenTo (ds.take 9).length :=
    value_lt fun c mem => all c (List.mem_of_mem_take mem)
  have filled : tenTo (ds.take 9).length * tenTo (9 - ds.length) = 1000000000 := by
    have widths : (ds.take 9).length + (9 - ds.length) = 9 := by
      rw [List.length_take]
      omega
    exact (Nat.pow_add 10 _ _).symm.trans (congrArg tenTo widths)
  have positive : 0 < tenTo (9 - ds.length) := Nat.pow_pos (by decide)
  exact Nat.lt_of_lt_of_eq (Nat.mul_lt_mul_of_pos_right front positive) filled

theorem readFraction?_lt (read : readFraction? s = some (nano, rest)) : nano < 1000000000 := by
  unfold readFraction? at read
  split at read
  · simp only [Option.ite_none_left_eq_some, Option.some.injEq, Prod.mk.injEq] at read
    obtain ⟨_, rfl, _⟩ := read
    exact nanoseconds_lt fun _ => List.all_eq_true.mp List.all_takeWhile _
  · cases read
    decide

theorem legible_of_ofFace? {hour minute second : Nat} (short : nano < 1000000000)
    (read : Clock.ofFace? hour minute second nano = some c) : c.Legible := by
  intro leap
  simp only [Clock.ofFace?, Clock.of?] at read
  split at read
  · obtain ⟨_, found⟩ := Option.dite_none_right_eq_some.mp read
    cases found
    dsimp only
    omega
  · obtain ⟨_, found⟩ := Option.dite_none_right_eq_some.mp read
    cases found
    exact absurd short (Nat.not_lt.mpr leap)

theorem legible_of_strictClock? (read : strictClock? s = some (c, rest)) : c.Legible := by
  simp only [strictClock?, Option.bind_eq_bind, Option.bind_eq_some_iff] at read
  obtain ⟨_, _, _, _, _, _, _, _, _, _, ⟨nano, _⟩, fraction, clock, face, found⟩ := read
  cases found
  exact legible_of_ofFace? (readFraction?_lt fraction) face

theorem legible_of_looseClock? (read : looseClock? s = some (c, rest)) : c.Legible := by
  simp only [looseClock?, Option.bind_eq_bind, Option.bind_eq_some_iff] at read
  obtain ⟨_, _, _, _, _, _, _, _, _, _, ⟨nano, _⟩, fraction, clock, face, found⟩ := read
  cases found
  exact legible_of_ofFace? (readFraction?_lt fraction) face

theorem legible_of_ofLocal? {date : Date} {east : Int} (legible : c.Legible)
    (found : Instant.ofLocal? date c east = some t) : t.Legible := by
  obtain ⟨_, _, rfl⟩ := Option.map_eq_some_iff.mp found
  exact legible.turn _

theorem legible_of_strictInstant? (read : strictInstant? s = some t) : t.Legible := by
  simp only [strictInstant?, Option.bind_eq_bind, Option.bind_eq_some_iff] at read
  obtain ⟨_, _, _, _, _, clock, _, _, found⟩ := read
  exact legible_of_ofLocal? (legible_of_strictClock? clock) found

theorem legible_of_looseLocal? {separator : Separator} {date : Date}
    (read : looseLocal? separator s = some ((date, c), rest)) : c.Legible := by
  simp only [looseLocal?, Option.bind_eq_bind, Option.bind_eq_some_iff] at read
  obtain ⟨_, _, _, _, _, clock, found⟩ := read
  cases found
  exact legible_of_looseClock? clock

theorem complete?_eq_some {α : Type} {reading : Option (α × List Char)} {a : α} :
    complete? reading = some a ↔ reading = some (a, []) := by
  unfold complete?
  split
  · simp
  · next other =>
    refine iff_of_false nofun fun whole => ?_
    exact other a whole

theorem legible_of_withOffset? {separator : Separator}
    (read : withOffset? separator s = some t) : t.Legible := by
  simp only [withOffset?, Option.bind_eq_bind, Option.bind_eq_some_iff] at read
  obtain ⟨_, whole, _, _, found⟩ := read
  exact legible_of_ofLocal? (legible_of_looseLocal? whole) found

theorem legible_of_withoutOffset? {separator : Separator}
    (read : withoutOffset? separator s = some t) : t.Legible := by
  obtain ⟨_, whole, rfl⟩ := Option.map_eq_some_iff.mp read
  exact legible_of_looseLocal? (complete?_eq_some.mp whole)

end Calendar

namespace Instant

theorem legible_ofDate (d : Date) : (ofDate d).Legible :=
  fun leap => absurd leap (Nat.not_succ_le_zero _)

/-- What is read is legible, whatever form it is read from. -/
theorem legible_of_read? {s : List Char} {t : Instant} (read : read? s = some t) : t.Legible := by
  simp only [Instant.read?, Option.orElse_eq_orElse, Option.orElse_eq_or,
    Option.or_eq_some_iff] at read
  rcases read with strict | ⟨_, offset | ⟨_, offset | ⟨_, bare | ⟨_, bare | ⟨_, date⟩⟩⟩⟩⟩
  · exact legible_of_strictInstant? strict
  · exact legible_of_withOffset? offset
  · exact legible_of_withOffset? offset
  · exact legible_of_withoutOffset? bare
  · exact legible_of_withoutOffset? bare
  · obtain ⟨d, _, rfl⟩ := Option.map_eq_some_iff.mp date
    exact legible_ofDate d

end Instant

/-! ### Values -/

namespace Value

variable {v w : Value}

/-- A value other than an instant is always legible. -/
def Legible : Value → Prop
  | datetime t => t.Legible
  | _ => True

/-- The value that the text of a value stands for. -/
def shown : Value → Value
  | datetime t => datetime t.shown
  | v => v

theorem shown_eq_self_iff : v.shown = v ↔ v.Legible := by
  cases v with
  | datetime t => rw [shown, datetime.injEq, Instant.shown_eq_self_iff, Legible]
  | _ => exact iff_of_true rfl trivial

theorem shown_of_legible (h : v.Legible) : v.shown = v := shown_eq_self_iff.mpr h

theorem eq_of_shown_eq (same : v.shown = w.shown) (alike : v.Legible ↔ w.Legible) : v = w := by
  cases v with
  | datetime t =>
    cases w with
    | datetime u => exact congrArg datetime (Instant.eq_of_shown_eq (datetime.inj same) alike)
    | _ => cases same
  | _ =>
    cases w with
    | datetime u => cases same
    | _ => exact same

theorem literalText_shown (v : Value) : v.shown.literalText = v.literalText := by
  cases v with
  | datetime t => exact t.text_shown
  | _ => rfl

end Value

end RecordQuery
