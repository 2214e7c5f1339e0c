import RecordQuery.Calendar.Instant
import RecordQuery.Text.Blank
import RecordQuery.Text.Numeral

/-!
# Reading dates and instants

Each reader takes its part from the front of a text and gives the rest. The strict form has fixed
widths throughout. The loose forms let white space stand before every number and digits be left
out, and an offset may come without its colon.
-/

namespace RecordQuery.Calendar

open Text Text.Numeral

/-! ### Parts -/

def expect? (c : Char) : List Char → Option (List Char)
  | x :: rest => if x = c then some rest else none
  | [] => none

/-- Between one and `width` digits, as many as there are. -/
def readDigits? (width : Nat) (s : List Char) : Option (Nat × List Char) :=
  let ds := (s.take width).takeWhile Char.isDigit
  if ds = [] then none else some (value ds, s.drop ds.length)

/-- Exactly `width` digits. -/
def readExactly? (width : Nat) (s : List Char) : Option (Nat × List Char) :=
  let ds := s.take width
  if ds.length = width ∧ ds.all Char.isDigit then some (value ds, s.drop width) else none

/-- One or two digits, after any white space. -/
def readTwo? (s : List Char) : Option (Nat × List Char) := readDigits? 2 (skipBlank s)

/-- A year of one to four digits, or of any number of digits after a sign. -/
def readYear? (s : List Char) : Option (Int × List Char) :=
  match skipBlank s with
  | '-' :: rest => (readDigits? rest.length rest).map fun (n, rest) => (-(n : Int), rest)
  | '+' :: rest => (readDigits? rest.length rest).map fun (n, rest) => ((n : Int), rest)
  | s => (readDigits? 4 s).map fun (n, rest) => ((n : Int), rest)

/-- The nanoseconds that the digits after the point denote; digits past the ninth are dropped. -/
def nanoseconds (ds : List Char) : Nat :=
  value (ds.take 9) * tenTo (9 - ds.length)

/-- A point and at least one digit, or no fraction at all. -/
def readFraction? : List Char → Option (Nat × List Char)
  | '.' :: rest =>
    let ds := rest.takeWhile Char.isDigit
    if ds = [] then none else some (nanoseconds ds, rest.drop ds.length)
  | s => some (0, s)

/-- The sign of an offset, true for west. The minus sign proper counts as a hyphen. -/
def readDirection? : List Char → Option (Bool × List Char)
  | '+' :: rest => some (false, rest)
  | '-' :: rest => some (true, rest)
  | '\u2212' :: rest => some (true, rest)
  | _ => none

/-- Minutes east of UTC, less than a day either way. -/
def offset? (west : Bool) (hour minute : Nat) : Option Int :=
  if hour < 24 ∧ minute < 60 then
    let minutes : Int := hour * 60 + minute
    some (if west then -minutes else minutes)
  else none

/-- The value of a reading that leaves nothing over. -/
def complete? {α : Type} : Option (α × List Char) → Option α
  | some (a, []) => some a
  | _ => none

/-! ### The strict form -/

def strictDate? (s : List Char) : Option (Date × List Char) := do
  let (year, s) ← readExactly? 4 s
  let (month, s) ← readExactly? 2 (← expect? '-' s)
  let (day, s) ← readExactly? 2 (← expect? '-' s)
  return (← Date.of? year month day, s)

def strictClock? (s : List Char) : Option (Clock × List Char) := do
  let (hour, s) ← readExactly? 2 s
  let (minute, s) ← readExactly? 2 (← expect? ':' s)
  let (second, s) ← readExactly? 2 (← expect? ':' s)
  let (nano, s) ← readFraction? s
  return (← Clock.ofFace? hour minute second nano, s)

def strictOffset? : List Char → Option (Int × List Char)
  | 'Z' :: rest => some (0, rest)
  | 'z' :: rest => some (0, rest)
  | s => do
    let (west, s) ← readDirection? s
    let (hour, s) ← readExactly? 2 s
    let (minute, s) ← readExactly? 2 (← expect? ':' s)
    return (← offset? west hour minute, s)

/-- One letter T in either case, or one space. -/
def strictSeparator? : List Char → Option (List Char)
  | 'T' :: rest => some rest
  | 't' :: rest => some rest
  | ' ' :: rest => some rest
  | _ => none

def strictInstant? (s : List Char) : Option Instant := do
  let (date, s) ← strictDate? s
  let (clock, s) ← strictClock? (← strictSeparator? s)
  let east ← complete? (strictOffset? s)
  Instant.ofLocal? date clock east

/-! ### The loose forms -/

def looseDate? (s : List Char) : Option (Date × List Char) := do
  let (year, s) ← readYear? s
  let (month, s) ← readTwo? (← expect? '-' s)
  let (day, s) ← readTwo? (← expect? '-' s)
  return (← Date.of? year month day, s)

def looseClock? (s : List Char) : Option (Clock × List Char) := do
  let (hour, s) ← readTwo? s
  let (minute, s) ← readTwo? (← expect? ':' s)
  let (second, s) ← readTwo? (← expect? ':' s)
  let (nano, s) ← readFraction? s
  return (← Clock.ofFace? hour minute second nano, s)

def looseOffset? (s : List Char) : Option (Int × List Char) := do
  let (west, s) ← readDirection? (skipBlank s)
  let (hour, s) ← readExactly? 2 s
  let (minute, s) ← readExactly? 2 (s.dropWhile fun c => c == ':' || isBlank c)
  return (← offset? west hour minute, s)

/-- What stands between the date and the time. -/
inductive Separator where
  | letter
  | blank

def Separator.read? : Separator → List Char → Option (List Char)
  | letter, s => expect? 'T' s
  | blank, s => some (skipBlank s)

def looseLocal? (separator : Separator) (s : List Char) :
    Option ((Date × Clock) × List Char) := do
  let (date, s) ← looseDate? s
  let (clock, s) ← looseClock? (← separator.read? s)
  return ((date, clock), s)

def withOffset? (separator : Separator) (s : List Char) : Option Instant := do
  let ((date, clock), s) ← looseLocal? separator s
  let east ← complete? (looseOffset? s)
  Instant.ofLocal? date clock east

def withoutOffset? (separator : Separator) (s : List Char) : Option Instant :=
  (complete? (looseLocal? separator s)).map fun (date, clock) => ⟨date, clock⟩

def bareDate? (s : List Char) : Option Date := complete? (looseDate? s)

end RecordQuery.Calendar

namespace RecordQuery

open Calendar

/-- Reads an instant in the first form that fits: with an offset, without one as UTC, or a bare
date as its midnight. White space around it is ignored. -/
def Instant.read? (s : List Char) : Option Instant :=
  let s := Text.trim s
  strictInstant? s
    <|> withOffset? .letter s
    <|> withOffset? .blank s
    <|> withoutOffset? .letter s
    <|> withoutOffset? .blank s
    <|> (bareDate? s).map Instant.ofDate

/-- Reads a date, or the date in UTC of an instant. -/
def Date.read? (s : List Char) : Option Date :=
  bareDate? (Text.trim s) <|> (Instant.read? s).map Instant.date

end RecordQuery
