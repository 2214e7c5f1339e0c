import RecordQuery.Proofs.Calendar.Days
import RecordQuery.Proofs.Calendar.RoundTrip

/-!
# The forms of an instant

An instant can be written as a clock at any offset shows it, with or without a colon in the offset,
and in UTC also with a `Z` or without any offset. The six readers that are tried one after the other
find it again from each of these forms, and white space around it does not matter.
-/

namespace RecordQuery

open Calendar Text Text.Numeral

namespace Calendar

/-- The direction, the hours and the minutes of an offset, with or without a colon in between. -/
def offsetText (east : Int) (colon : Bool) : List Char :=
  (if east < 0 then '-' else '+') ::
    (padded 2 (east.natAbs / 60) ++ ((if colon then [':'] else []) ++ padded 2 (east.natAbs % 60)))

/-- The letter T, or one space. -/
def Separator.char : Separator → Char
  | letter => 'T'
  | blank => ' '

/-- A date and a time of day with what stands between and behind them. -/
def localText (date : Date) (separator : Separator) (clock : Clock)
    (fraction offset : List Char) : List Char :=
  date.text ++ separator.char :: (clock.faceText ++ (fraction ++ offset))

end Calendar

/-- The texts that denote an instant, which only a legible one has. -/
inductive Instant.Form (t : Instant) : List Char → Prop
  | shifted {east : Int} {date : Date} {clock : Clock} {fraction : List Char}
      (separator : Separator) (colon : Bool) (within : -1440 < east ∧ east < 1440)
      (shows : t.Shows east date clock) (exact : clock.Exact fraction) :
      Form t (localText date separator clock fraction (offsetText east colon))
  | zulu {fraction : List Char} (plain : IsPlain t.date.year)
      (exact : t.clock.Exact fraction) :
      Form t (localText t.date .letter t.clock fraction ['Z'])
  | unmarked {fraction : List Char} (separator : Separator)
      (exact : t.clock.Exact fraction) :
      Form t (localText t.date separator t.clock fraction [])

/-! ### Offsets -/

namespace Calendar

variable {east : Int}

theorem stops_offsetText (east : Int) (colon : Bool) : Stops (offsetText east colon) := by
  refine stops_cons ?_ _
  split <;> decide

theorem offset?_parts (within : -1440 < east ∧ east < 1440) :
    offset? (decide (east < 0)) (east.natAbs / 60) (east.natAbs % 60) = some east := by
  rw [offset?, if_pos (by omega)]
  by_cases west : east < 0
  · simp only [west, decide_true, if_true, Option.some.injEq]
    omega
  · simp only [west, decide_false, Bool.false_eq_true, if_false, Option.some.injEq]
    omega

theorem readDirection?_sign (rest : List Char) :
    readDirection? ((if east < 0 then '-' else '+') :: rest) = some (decide (east < 0), rest) := by
  by_cases west : east < 0
  · simp only [west, if_true, decide_true]
    rfl
  · simp only [west, if_false, decide_false]
    rfl

/-- The strict form takes a sign for the direction and nothing else. -/
theorem strictOffset?_sign (rest : List Char) :
    strictOffset? ((if east < 0 then '-' else '+') :: rest) = (do
      let (hour, s) ← readExactly? 2 rest
      let (minute, s) ← readExactly? 2 (← expect? ':' s)
      return (← offset? (decide (east < 0)) hour minute, s)) := by
  by_cases west : east < 0
  · simp only [west, if_true, decide_true]
    rfl
  · simp only [west, if_false, decide_false]
    rfl

theorem readExactly?_minutes (rest : Nat) (fits : rest < 100) :
    readExactly? 2 (padded 2 rest) = some (rest, []) := by
  have read := readExactly?_two fits []
  rwa [List.append_nil] at read

theorem strictOffset?_colon (within : -1440 < east ∧ east < 1440) :
    strictOffset? (offsetText east true) = some (east, []) := by
  rw [offsetText, strictOffset?_sign, readExactly?_two (by omega)]
  simp only [if_true, List.cons_append, List.nil_append, Option.bind_eq_bind, Option.bind_some,
    expect?, readExactly?_minutes (east.natAbs % 60) (by omega), offset?_parts within]
  rfl

/-- Without a colon an offset is none for the strict form. -/
theorem strictOffset?_bare (within : -1440 < east ∧ east < 1440) :
    strictOffset? (offsetText east false) = none := by
  obtain ⟨c, s, text, digit⟩ := padded_cons 2 (east.natAbs % 60)
  have other : c ≠ ':' := by
    rintro rfl
    cases digit
  rw [offsetText, strictOffset?_sign, readExactly?_two (by omega), text]
  simp only [Bool.false_eq_true, if_false, List.nil_append, Option.bind_eq_bind, Option.bind_some,
    expect?, other, Option.bind_none]

theorem looseOffset?_offsetText (within : -1440 < east ∧ east < 1440) (colon : Bool) :
    looseOffset? (offsetText east colon) = some (east, []) := by
  have solid : isBlank (if east < 0 then '-' else '+') = false := by
    split <;> decide
  obtain ⟨c, s, text, digit⟩ := padded_cons 2 (east.natAbs % 60)
  have first : (c == ':' || isBlank c) = false := by
    have other : c ≠ ':' := by
      rintro rfl
      cases digit
    rw [isBlank_of_isDigit digit, beq_false_of_ne other]
    rfl
  have skipped : ((if colon then [':'] else []) ++ padded 2 (east.natAbs % 60)).dropWhile
      (fun c => c == ':' || isBlank c) = padded 2 (east.natAbs % 60) := by
    rw [List.dropWhile_append_of_pos (by cases colon <;> simp), text,
      List.dropWhile_cons_of_neg (by simp [first])]
  rw [offsetText, looseOffset?, skipBlank_cons solid, readDirection?_sign]
  simp only [Option.bind_eq_bind, Option.bind_some]
  rw [readExactly?_two (by omega)]
  simp only [Option.bind_some, skipped, readExactly?_minutes (east.natAbs % 60) (by omega),
    offset?_parts within]
  rfl

end Calendar

/-! ### Readers -/

namespace Calendar

variable {date : Date} {separator : Separator} {clock : Clock} {fraction offset : List Char}

theorem head?_faceText (clock : Clock) (rest : List Char) :
    ∀ c ∈ (clock.faceText ++ rest).head?, isBlank c = false := by
  obtain ⟨c, s, text, digit⟩ := padded_cons 2 clock.face.1
  rw [Clock.faceText_append, text]
  rintro _ ⟨⟩
  exact isBlank_of_isDigit digit

theorem strictInstant?_localText (plain : IsPlain date.year)
    (exact : clock.Exact fraction) (stops : Stops offset)
    (point : offset.head? ≠ some '.') :
    strictInstant? (localText date separator clock fraction offset) =
      (complete? (strictOffset? offset)).bind (Instant.ofLocal? date clock) := by
  have separated (s : List Char) : strictSeparator? (separator.char :: s) = some s := by
    cases separator <;> rfl
  rw [localText, strictInstant?, Date.strictDate?_text plain]
  simp only [Option.bind_eq_bind, Option.bind_some, separated,
    Clock.strictClock?_face exact stops point]

theorem strictInstant?_signed (signed : ¬ IsPlain date.year) :
    strictInstant? (localText date separator clock fraction offset) = none := by
  rw [localText, strictInstant?, Date.strictDate?_signed signed]
  rfl

theorem looseLocal?_localText (exact : clock.Exact fraction)
    (stops : Stops offset) (point : offset.head? ≠ some '.') :
    looseLocal? separator (localText date separator clock fraction offset) =
      some ((date, clock), offset) := by
  have separated : separator.read? (separator.char :: (clock.faceText ++ (fraction ++ offset))) =
      some (clock.faceText ++ (fraction ++ offset)) := by
    cases separator with
    | letter => rfl
    | blank => exact congrArg some (skipBlank_eq_self (head?_faceText clock _))
  rw [localText, looseLocal?, Date.looseDate?_text]
  simp only [Option.bind_eq_bind, Option.bind_some, separated,
    Clock.looseClock?_face exact stops point]
  rfl

/-- No form takes the separator of the other: a space is not a T, and a T is not a digit. -/
theorem looseLocal?_other {other : Separator} (different : other ≠ separator) :
    looseLocal? other (localText date separator clock fraction offset) = none := by
  rw [localText, looseLocal?, Date.looseDate?_text]
  simp only [Option.bind_eq_bind, Option.bind_some]
  cases other with
  | letter =>
    cases separator with
    | letter => exact absurd rfl different
    | blank => rfl
  | blank =>
    cases separator with
    | letter => rfl
    | blank => exact absurd rfl different

theorem withOffset?_localText (exact : clock.Exact fraction)
    (stops : Stops offset) (point : offset.head? ≠ some '.') :
    withOffset? separator (localText date separator clock fraction offset) =
      (complete? (looseOffset? offset)).bind (Instant.ofLocal? date clock) := by
  rw [withOffset?, looseLocal?_localText exact stops point]
  rfl

theorem withOffset?_other {other : Separator} (different : other ≠ separator) :
    withOffset? other (localText date separator clock fraction offset) = none := by
  rw [withOffset?, looseLocal?_other different]
  rfl

theorem withoutOffset?_localText (exact : clock.Exact fraction) :
    withoutOffset? separator (localText date separator clock fraction []) = some ⟨date, clock⟩ := by
  rw [withoutOffset?, looseLocal?_localText exact stops_nil nofun]
  rfl

theorem withoutOffset?_other {other : Separator} (different : other ≠ separator) :
    withoutOffset? other (localText date separator clock fraction offset) = none := by
  rw [withoutOffset?, looseLocal?_other different]
  rfl

end Calendar

/-! ### Whole texts -/

namespace Calendar

/-- Text without any white space in it. -/
def Solid (s : List Char) : Prop := ∀ c ∈ s, isBlank c = false

theorem solid_digits {ds : List Char} (all : ∀ c ∈ ds, c.isDigit = true) : Solid ds :=
  fun c mem => isBlank_of_isDigit (all c mem)

theorem solid_padded (width n : Nat) : Solid (padded width n) :=
  solid_digits fun _ => isDigit_of_mem_padded

theorem Solid.append {s u : List Char} (first : Solid s) (second : Solid u) : Solid (s ++ u) :=
  List.forall_mem_append.mpr ⟨first, second⟩

theorem Solid.cons {c : Char} {s : List Char} (first : isBlank c = false) (rest : Solid s) :
    Solid (c :: s) :=
  List.forall_mem_cons.mpr ⟨first, rest⟩

theorem FractionText.solid {nano : Nat} {text : List Char} (exact : FractionText nano text) :
    Solid text := by
  cases exact with
  | none => exact List.forall_mem_nil _
  | digits all => exact .cons (by decide) (solid_digits all)

theorem solid_faceText (clock : Clock) : Solid clock.faceText := by
  have two := solid_padded 2
  exact ((two _).append (.cons (by decide) (two _))).append (.cons (by decide) (two _))

theorem solid_offsetText (east : Int) (colon : Bool) : Solid (offsetText east colon) := by
  have mark : Solid (if colon then [':'] else []) := by
    cases colon with
    | true => exact .cons (by decide) (List.forall_mem_nil _)
    | false => exact List.forall_mem_nil _
  refine .cons ?_ ((solid_padded 2 _).append (mark.append (solid_padded 2 _)))
  split <;> decide

/-- The white space around a date and a time is no part of them. -/
theorem trim_localText {date : Date} {separator : Separator} {clock : Clock}
    {fraction offset before after : List Char} (exact : clock.Exact fraction)
    (solid : Solid offset) (before_blank : ∀ c ∈ before, isBlank c = true)
    (after_blank : ∀ c ∈ after, isBlank c = true) :
    trim (before ++ localText date separator clock fraction offset ++ after) =
      localText date separator clock fraction offset := by
  have behind : Solid (clock.faceText ++ (fraction ++ offset)) :=
    (solid_faceText clock).append (exact.written.solid.append solid)
  have filled : clock.faceText ++ (fraction ++ offset) ≠ [] := by
    rw [Clock.faceText_append]
    exact List.append_ne_nil_of_left_ne_nil (padded_ne_nil _ _) _
  refine trim_around before_blank after_blank (date.head?_text _) fun c mem => behind c ?_
  rw [localText, List.getLast?_append, List.getLast?_cons_of_ne_nil filled,
    List.getLast?_eq_some_getLast filled, Option.some_or] at mem
  exact Option.some.inj mem ▸ List.getLast_mem filled

end Calendar

namespace Instant

variable {t : Instant} {s u : List Char}

/-- UTC shows every instant as it is. -/
theorem shows_utc (t : Instant) : t.Shows 0 t.date t.clock := ⟨by omega, rfl⟩

theorem Form.trim (form : t.Form u) {before after : List Char}
    (before_blank : ∀ c ∈ before, isBlank c = true) (after_blank : ∀ c ∈ after, isBlank c = true) :
    Text.trim (before ++ u ++ after) = u := by
  cases form with
  | shifted _ _ _ _ exact =>
    exact trim_localText exact (solid_offsetText _ _) before_blank after_blank
  | zulu _ exact =>
    exact trim_localText exact (.cons (by decide) (List.forall_mem_nil _)) before_blank after_blank
  | unmarked _ exact => exact trim_localText exact (List.forall_mem_nil _) before_blank after_blank

/-- Of the readers that are tried in turn, the first to read anything reads the instant. -/
theorem Form.read? (form : t.Form u) (trimmed : Text.trim s = u) : Instant.read? s = some t := by
  rw [Instant.read?, trimmed]
  cases form with
  | @shifted east date clock fraction separator colon within shows exact =>
    have stops := stops_offsetText east colon
    have point : (offsetText east colon).head? ≠ some '.' := by
      rw [offsetText, List.head?_cons]
      split <;> decide
    have found := shows.ofLocal?
    have loose : withOffset? separator
        (localText date separator clock fraction (offsetText east colon)) = some t := by
      rw [withOffset?_localText exact stops point, looseOffset?_offsetText within]
      exact found
    by_cases strict : IsPlain date.year ∧ colon = true
    · obtain ⟨plain, rfl⟩ := strict
      rw [strictInstant?_localText plain exact stops point, strictOffset?_colon within]
      exact congrArg (· <|> _) found
    · have refused : strictInstant?
          (localText date separator clock fraction (offsetText east colon)) = none := by
        by_cases plain : IsPlain date.year
        · have bare : colon = false := Bool.eq_false_iff.mpr fun marked => strict ⟨plain, marked⟩
          rw [strictInstant?_localText plain exact stops point, bare, strictOffset?_bare within]
          rfl
        · exact strictInstant?_signed plain
      rw [refused]
      cases separator with
      | letter =>
        rw [loose]
        rfl
      | blank =>
        have different : Separator.letter ≠ .blank := by rintro ⟨⟩
        rw [withOffset?_other different, loose]
        rfl
  | zulu plain exact =>
    rw [strictInstant?_localText plain exact (stops_cons (by decide) _) (by decide)]
    exact congrArg (· <|> _) t.shows_utc.ofLocal?
  | @unmarked fraction separator exact =>
    -- No reader finds an offset where there is none, so the first to succeed is one for UTC.
    have strict : strictInstant? (localText t.date separator t.clock fraction []) = none := by
      by_cases plain : IsPlain t.date.year
      · rw [strictInstant?_localText plain exact stops_nil (by decide)]
        rfl
      · exact strictInstant?_signed plain
    have offset (form : Separator) :
        withOffset? form (localText t.date separator t.clock fraction []) = none := by
      by_cases same : form = separator
      · rw [same, withOffset?_localText exact stops_nil (by decide)]
        rfl
      · exact withOffset?_other same
    have loose : withoutOffset? separator (localText t.date separator t.clock fraction []) =
        some t := withoutOffset?_localText exact
    rw [strict, offset, offset]
    cases separator with
    | letter =>
      rw [loose]
      rfl
    | blank =>
      have different : Separator.letter ≠ .blank := by rintro ⟨⟩
      rw [withoutOffset?_other different, loose]
      rfl

/-- The written text is one of the forms. -/
theorem text_form (legible : t.Legible) : t.Form t.text := by
  have written := fractionText_written t.clock.face_bounds.2.2.2
  have same : t.text = localText t.date .letter t.clock (fractionText t.clock.face.2.2.2)
      (offsetText 0 true) := by
    have offset : offsetText 0 true = ['+', '0', '0', ':', '0', '0'] := by decide
    simp only [text, localText, Separator.char, Clock.text_eq, offset, List.append_assoc,
      List.cons_append]
  rw [same]
  exact .shifted .letter true (by decide) t.shows_utc ⟨legible, written⟩

/-- An instant is read back as what its text shows, so just as it was if it is legible. -/
theorem read?_text (t : Instant) : read? t.text = some t.shown := by
  have form := text_form t.legible_shown
  have trimmed := form.trim (List.forall_mem_nil _) (List.forall_mem_nil _)
  rw [List.append_nil] at trimmed
  rw [← t.text_shown]
  exact form.read? trimmed

/-- An instant is read from each of its forms, with any white space around them. -/
theorem read?_form (form : t.Form u) {before after : List Char}
    (before_blank : ∀ c ∈ before, isBlank c = true) (after_blank : ∀ c ∈ after, isBlank c = true) :
    Instant.read? (before ++ u ++ after) = some t :=
  form.read? (form.trim before_blank after_blank)

/-- A leap second at the end of a year, where clocks ahead of UTC already show the next one. -/
def yearEndLeap : Instant :=
  ⟨⟨2016, 12, 31, by decide⟩, ⟨86399, 1500000000, by decide, by decide⟩⟩

/-- Half an hour past five of the first of January, with half of the leap second gone. -/
def yearEndLeapText : List Char :=
  ['2', '0', '1', '7', '-', '0', '1', '-', '0', '1', ' ', '0', '5', ':', '2', '9', ':', '6', '0',
    '.', '5', '+', '0', '5', '3', '0']

theorem yearEndLeap_read :
    yearEndLeap.Form yearEndLeapText ∧
      Instant.read? ([' ', '\t'] ++ yearEndLeapText ++ ['\n']) = some yearEndLeap := by
  have shows : yearEndLeap.Shows 330 ⟨2017, 1, 1, by decide⟩
      ⟨19799, 1500000000, by decide, by decide⟩ := ⟨by decide, rfl⟩
  have half : FractionText 500000000 ['.', '5'] :=
    @FractionText.digits ['5'] (List.all_eq_true.mp rfl) (by decide) (by decide)
  have form : yearEndLeap.Form yearEndLeapText :=
    .shifted .blank false (by decide) shows ⟨by decide, half⟩
  exact ⟨form, read?_form form (List.all_eq_true.mp rfl) (List.all_eq_true.mp rfl)⟩

end Instant

end RecordQuery
