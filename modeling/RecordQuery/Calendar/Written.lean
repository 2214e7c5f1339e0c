import RecordQuery.Calendar.Instant
import RecordQuery.Text.Numeral

/-!
# Written dates and instants

A date is written `YYYY-MM-DD`. An instant adds the time, the shortest exact fraction of three,
six or nine digits, and the offset `+00:00`.
-/

namespace RecordQuery

open Text.Numeral

/-- Years from 0 to 9999 have four digits, all others a sign and at least four digits. -/
def Calendar.yearText (year : Int) : List Char :=
  if 0 ≤ year ∧ year ≤ 9999 then padded 4 year.toNat
  else (if year < 0 then '-' else '+') :: padded 4 year.natAbs

/-- The fewest of nothing, three, six or nine digits that give the nanoseconds exactly. -/
def Calendar.fractionText (nano : Nat) : List Char :=
  if nano = 0 then []
  else if nano % 1000000 = 0 then '.' :: padded 3 (nano / 1000000)
  else if nano % 1000 = 0 then '.' :: padded 6 (nano / 1000)
  else '.' :: padded 9 nano

def Date.text (d : Date) : List Char :=
  Calendar.yearText d.year ++ '-' :: padded 2 d.month ++ '-' :: padded 2 d.day

def Clock.text (c : Clock) : List Char :=
  let (hour, minute, second, nano) := c.face
  padded 2 hour ++ ':' :: padded 2 minute ++ ':' :: padded 2 second ++ Calendar.fractionText nano

def Instant.text (t : Instant) : List Char :=
  t.date.text ++ 'T' :: t.clock.text ++ ['+', '0', '0', ':', '0', '0']

end RecordQuery
