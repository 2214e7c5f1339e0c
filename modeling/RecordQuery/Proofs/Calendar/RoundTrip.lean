import RecordQuery.Proofs.Calendar.Legible

/-!
# Written dates and clocks are read back

Every date is read back from its text, years with a sign included, and so is every legible clock,
with any fraction that gives its nanoseconds and at a leap second too. The readers work from the
front, so each part is read back whatever follows it, as long as a digit does not.
-/

namespace RecordQuery.Calendar

open Text Text.Numeral

variable {width n : Nat} {ds rest : List Char}

/-! ### Runs of digits -/

theorem readDigits?_append (all : ∀ c ∈ ds, c.isDigit = true) (nonempty : ds ≠ [])
    (fits : ds.length ≤ width) (ends : ds.length = width ∨ Stops rest) :
    readDigits? width (ds ++ rest) = some (value ds, rest) := by
  have stops : Stops (rest.take (width - ds.length)) := by
    rcases ends with rfl | stops
    · rw [Nat.sub_self]
      exact stops_nil
    · intro c hc
      rw [List.head?_take] at hc
      split at hc
      · cases hc
      · exact stops c hc
  have front : ((ds ++ rest).take width).takeWhile Char.isDigit = ds := by
    rw [List.take_append, List.take_of_length_le fits]
    exact (takeWhile_run all stops).1
  simp [readDigits?, front, nonempty]

theorem readExactly?_padded (positive : 0 < width) (fits : n < tenTo width) (rest : List Char) :
    readExactly? width (padded width n ++ rest) = some (n, rest) := by
  have long := length_padded positive fits
  have all : (padded width n).all Char.isDigit = true :=
    List.all_eq_true.mpr fun c hc => isDigit_of_mem_padded hc
  simp only [readExactly?, List.take_left' long, List.drop_left' long, long, all, value_padded,
    and_self, if_true]

theorem readExactly?_two (fits : n < 100) (rest : List Char) :
    readExactly? 2 (padded 2 n ++ rest) = some (n, rest) :=
  readExactly?_padded (by decide) fits rest

theorem skipBlank_padded (rest : List Char) :
    skipBlank (padded width n ++ rest) = padded width n ++ rest := by
  obtain ⟨c, s, text, digit⟩ := padded_cons width n
  rw [text, List.cons_append, skipBlank_cons (isBlank_of_isDigit digit)]

theorem readTwo?_padded (fits : n < 100) (rest : List Char) :
    readTwo? (padded 2 n ++ rest) = some (n, rest) := by
  have long : (padded 2 n).length = 2 := length_padded (by decide) fits
  rw [readTwo?, skipBlank_padded, readDigits?_append (fun _ => isDigit_of_mem_padded)
    (padded_ne_nil _ _) (Nat.le_of_eq long) (.inl long), value_padded]

/-! ### Years -/

/-- The years of four digits. -/
def IsPlain (year : Int) : Prop := 0 ≤ year ∧ year ≤ 9999

theorem yearText_plain {year : Int} (plain : IsPlain year) :
    yearText year = padded 4 year.toNat := if_pos plain

theorem yearText_signed {year : Int} (signed : ¬ IsPlain year) :
    yearText year = (if year < 0 then '-' else '+') :: padded 4 year.natAbs := if_neg signed

theorem IsPlain.lt {year : Int} (plain : IsPlain year) : year.toNat < tenTo 4 := by
  have four : year.toNat < 10000 := by
    have upper := plain.2
    omega
  exact four

/-- A text that starts with a digit is read as a year of at most four digits. -/
theorem readYear?_digit {c : Char} (digit : c.isDigit = true) (s : List Char) :
    readYear? (c :: s) = (readDigits? 4 (c :: s)).map fun (n, rest) => ((n : Int), rest) := by
  rw [readYear?, skipBlank_cons (isBlank_of_isDigit digit)]
  split
  · next same =>
    cases same
    cases digit
  · next same =>
    cases same
    cases digit
  · rfl

theorem readYear?_plain {year : Int} (plain : IsPlain year) (rest : List Char) :
    readYear? (yearText year ++ rest) = some (year, rest) := by
  have long : (padded 4 year.toNat).length = 4 := length_padded (by decide) plain.lt
  have read : readDigits? 4 (padded 4 year.toNat ++ rest) =
      some (value (padded 4 year.toNat), rest) :=
    readDigits?_append (fun _ => isDigit_of_mem_padded) (padded_ne_nil _ _)
      (Nat.le_of_eq long) (.inl long)
  obtain ⟨c, s, text, digit⟩ := padded_cons 4 year.toNat
  rw [yearText_plain plain, text, List.cons_append, readYear?_digit digit, ← List.cons_append,
    ← text, read, value_padded]
  simp only [Option.map_some, Int.toNat_of_nonneg plain.1]

theorem readYear?_signed {year : Int} (signed : ¬ IsPlain year) (stops : Stops rest) :
    readYear? (yearText year ++ rest) = some (year, rest) := by
  have read : readDigits? (padded 4 year.natAbs ++ rest).length (padded 4 year.natAbs ++ rest) =
      some (value (padded 4 year.natAbs), rest) :=
    readDigits?_append (fun _ => isDigit_of_mem_padded) (padded_ne_nil _ _)
      (by rw [List.length_append]; exact Nat.le_add_right ..) (.inr stops)
  rw [value_padded] at read
  rw [yearText_signed signed]
  by_cases negative : year < 0
  · have back : -(year.natAbs : Int) = year := by omega
    rw [if_pos negative, List.cons_append, readYear?, skipBlank_cons (by decide)]
    simp only [read, Option.map_some, back]
  · have back : (year.natAbs : Int) = year := by omega
    rw [if_neg negative, List.cons_append, readYear?, skipBlank_cons (by decide)]
    simp only [read, Option.map_some, back]

theorem readYear?_yearText (year : Int) (stops : Stops rest) :
    readYear? (yearText year ++ rest) = some (year, rest) := by
  by_cases plain : IsPlain year
  · exact readYear?_plain plain rest
  · exact readYear?_signed plain stops

/-! ### Fractions -/

/-- The texts of a fraction of a second: nothing for none, or a point and up to nine digits that
give the nanoseconds exactly. -/
inductive FractionText : Nat → List Char → Prop
  | none : FractionText 0 []
  | digits {ds : List Char} (all : ∀ c ∈ ds, c.isDigit = true) (nonempty : ds ≠ [])
      (short : ds.length ≤ 9) : FractionText (value ds * tenTo (9 - ds.length)) ('.' :: ds)

theorem FractionText.padded {width count nano : Nat} (positive : 0 < width) (short : width ≤ 9)
    (fits : count < tenTo width) (gives : count * tenTo (9 - width) = nano) :
    FractionText nano ('.' :: padded width count) := by
  subst gives
  have long := length_padded positive fits
  have written := FractionText.digits (fun _ => isDigit_of_mem_padded) (padded_ne_nil width count)
    (Nat.le_trans (Nat.le_of_eq long) short)
  rwa [value_padded, long] at written

theorem fractionText_written {nano : Nat} (fits : nano < 1000000000) :
    FractionText nano (fractionText nano) := by
  unfold fractionText
  split
  · next zero =>
    rw [zero]
    exact .none
  split
  · next whole =>
    have count : nano / 1000000 < 1000 := by omega
    have back : nano / 1000000 * tenTo (9 - 3) = nano :=
      Nat.div_mul_cancel (Nat.dvd_of_mod_eq_zero whole)
    exact .padded (by decide) (by decide) count back
  split
  · next whole =>
    have count : nano / 1000 < 1000000 := by omega
    have back : nano / 1000 * tenTo (9 - 6) = nano :=
      Nat.div_mul_cancel (Nat.dvd_of_mod_eq_zero whole)
    exact .padded (by decide) (by decide) count back
  · have back : nano * tenTo (9 - 9) = nano := Nat.mul_one nano
    exact .padded (by decide) (by decide) fits back

theorem FractionText.read? {nano : Nat} {text : List Char} (fraction : FractionText nano text)
    (stops : Stops rest) (point : rest.head? ≠ some '.') :
    readFraction? (text ++ rest) = some (nano, rest) := by
  cases fraction with
  | none =>
    cases rest with
    | nil => rfl
    | cons c rest =>
      rw [List.nil_append, readFraction?]
      rintro s ⟨⟩
      exact point rfl
  | @digits ds all nonempty short =>
    rw [List.cons_append, readFraction?, (takeWhile_run all stops).1]
    simp only [nonempty, if_false, List.drop_left, nanoseconds, List.take_of_length_le short]

theorem monthLength_le (year : Int) (month : Nat) : monthLength year month ≤ 31 := by
  unfold monthLength
  split
  · split <;> decide
  · decide
  · decide
  · decide
  · decide
  · decide

end RecordQuery.Calendar

namespace RecordQuery

open Calendar Text Text.Numeral

variable {rest : List Char}

/-! ### Dates -/

namespace Date

theorem month_lt (d : Date) : d.month < 100 := by
  have upper := d.valid.2.2.2.1
  omega

theorem day_lt (d : Date) : d.day < 100 := by
  have upper := d.valid.2.2.2.2.2
  have month := monthLength_le d.year d.month
  omega

theorem text_append (d : Date) (rest : List Char) :
    d.text ++ rest = yearText d.year ++
      '-' :: (padded 2 d.month ++ '-' :: (padded 2 d.day ++ rest)) := by
  simp only [text, List.append_assoc, List.cons_append]

theorem looseDate?_text (d : Date) (rest : List Char) :
    looseDate? (d.text ++ rest) = some (d, rest) := by
  rw [text_append, looseDate?, readYear?_yearText d.year (stops_cons (by decide) _)]
  simp only [Option.bind_eq_bind, Option.bind_some, expect?, if_true, readTwo?_padded d.month_lt,
    readTwo?_padded d.day_lt, of?_fields]
  rfl

theorem strictDate?_text {d : Date} (plain : IsPlain d.year) (rest : List Char) :
    strictDate? (d.text ++ rest) = some (d, rest) := by
  have year (s : List Char) : readExactly? 4 (padded 4 d.year.toNat ++ s) =
      some (d.year.toNat, s) := readExactly?_padded (by decide) plain.lt s
  rw [text_append, yearText_plain plain, strictDate?]
  simp only [Option.bind_eq_bind, Option.bind_some, expect?, if_true, year,
    readExactly?_two d.month_lt, readExactly?_two d.day_lt, Int.toNat_of_nonneg plain.1, of?_fields]
  rfl

/-- The strict form has no place for a sign. -/
theorem strictDate?_signed {d : Date} (signed : ¬ IsPlain d.year) (rest : List Char) :
    strictDate? (d.text ++ rest) = none := by
  have sign : (if d.year < 0 then '-' else '+').isDigit = false := by
    split <;> decide
  rw [text_append, yearText_signed signed, strictDate?, List.cons_append]
  simp [readExactly?, sign]

end Date

/-! ### Clocks -/

namespace Clock

variable {c : Clock}

theorem face_leap (h : 1000000000 ≤ c.nano) :
    c.face = (c.second / 3600, c.second / 60 % 60, c.second % 60 + 1, c.nano - 1000000000) := by
  simp [face, isLeap, h]

theorem face_plain (h : c.nano < 1000000000) :
    c.face = (c.second / 3600, c.second / 60 % 60, c.second % 60, c.nano) := by
  simp [face, isLeap, Nat.not_le.mpr h]

/-- The face shows hours, minutes and seconds of two digits and less than one second of
nanoseconds. -/
theorem face_bounds (c : Clock) :
    c.face.1 < 100 ∧ c.face.2.1 < 100 ∧ c.face.2.2.1 < 100 ∧ c.face.2.2.2 < 1000000000 := by
  have second := c.second_lt
  have nano := c.nano_lt
  rcases Nat.lt_or_ge c.nano 1000000000 with plain | leap
  · rw [face_plain plain]
    dsimp only
    omega
  · rw [face_leap leap]
    dsimp only
    omega

theorem of?_eq_some {hour minute second : Nat} (hour_lt : hour < 24) (minute_lt : minute < 60)
    (second_lt : second < 60) (total : hour * 3600 + minute * 60 + second = c.second) :
    of? hour minute second c.nano = some c := by
  rw [of?, dif_pos ⟨hour_lt, minute_lt, second_lt, c.nano_lt⟩]
  exact congrArg some (Clock.ext total rfl)

theorem ofFace?_face (legible : c.Legible) :
    ofFace? c.face.1 c.face.2.1 c.face.2.2.1 c.face.2.2.2 = some c := by
  have second := c.second_lt
  rcases Nat.lt_or_ge c.nano 1000000000 with plain | leap
  · rw [face_plain plain]
    dsimp only
    rw [ofFace?, if_neg (by omega)]
    exact of?_eq_some (by omega) (by omega) (by omega) (by omega)
  · have last := legible leap
    rw [face_leap leap]
    dsimp only
    rw [ofFace?, if_pos (by omega), Nat.sub_add_cancel leap]
    exact of?_eq_some (by omega) (by omega) (by omega) (by omega)

/-- Hours, minutes and seconds as they are written. -/
def faceText (c : Clock) : List Char :=
  padded 2 c.face.1 ++ ':' :: padded 2 c.face.2.1 ++ ':' :: padded 2 c.face.2.2.1

theorem text_eq (c : Clock) : c.text = c.faceText ++ fractionText c.face.2.2.2 := rfl

theorem faceText_append (c : Clock) (rest : List Char) :
    c.faceText ++ rest = padded 2 c.face.1 ++ ':' :: (padded 2 c.face.2.1 ++
      ':' :: (padded 2 c.face.2.2.1 ++ rest)) := by
  simp only [faceText, List.append_assoc, List.cons_append]

/-- The face and the fraction are exactly those of the clock. -/
structure Exact (c : Clock) (fraction : List Char) : Prop where
  legible : c.Legible
  written : FractionText c.face.2.2.2 fraction

variable {fraction : List Char}

theorem looseClock?_face (exact : c.Exact fraction) (stops : Stops rest)
    (point : rest.head? ≠ some '.') :
    looseClock? (c.faceText ++ (fraction ++ rest)) = some (c, rest) := by
  obtain ⟨hour, minute, second, nano⟩ := c.face_bounds
  rw [faceText_append, looseClock?, readTwo?_padded hour]
  simp only [Option.bind_eq_bind, Option.bind_some, expect?, if_true, readTwo?_padded minute,
    readTwo?_padded second, exact.written.read? stops point, ofFace?_face exact.legible]
  rfl

theorem strictClock?_face (exact : c.Exact fraction) (stops : Stops rest)
    (point : rest.head? ≠ some '.') :
    strictClock? (c.faceText ++ (fraction ++ rest)) = some (c, rest) := by
  obtain ⟨hour, minute, second, nano⟩ := c.face_bounds
  rw [faceText_append, strictClock?, readExactly?_two hour]
  simp only [Option.bind_eq_bind, Option.bind_some, expect?, if_true, readExactly?_two minute,
    readExactly?_two second, exact.written.read? stops point, ofFace?_face exact.legible]
  rfl

end Clock

/-! ### Whole texts -/

/-- A year starts with a digit or a sign. -/
theorem Calendar.yearText_cons (year : Int) :
    ∃ c s, yearText year = c :: s ∧ isBlank c = false := by
  by_cases plain : IsPlain year
  · obtain ⟨c, s, text, digit⟩ := padded_cons 4 year.toNat
    exact ⟨c, s, by rw [yearText_plain plain, text], isBlank_of_isDigit digit⟩
  · refine ⟨_, _, yearText_signed plain, ?_⟩
    split <;> decide

theorem Date.head?_text (d : Date) (rest : List Char) :
    ∀ c ∈ (d.text ++ rest).head?, isBlank c = false := by
  obtain ⟨c, s, text, solid⟩ := yearText_cons d.year
  rw [text_append, text]
  rintro _ ⟨⟩
  exact solid

theorem Date.trim_text (d : Date) : trim d.text = d.text := by
  refine trim_eq_self ?_ ?_
  · have first := d.head?_text []
    rwa [List.append_nil] at first
  · intro c hc
    rw [Date.text, List.getLast?_append, List.getLast?_cons_of_ne_nil (padded_ne_nil _ _),
      List.getLast?_eq_some_getLast (padded_ne_nil _ _), Option.some_or] at hc
    obtain rfl := Option.some.inj hc
    exact isBlank_of_isDigit (isDigit_of_mem_padded (List.getLast_mem _))

theorem Date.read?_text (d : Date) : read? d.text = some d := by
  have read := looseDate?_text d []
  rw [List.append_nil] at read
  rw [read?, trim_text, bareDate?, read]
  rfl

end RecordQuery
