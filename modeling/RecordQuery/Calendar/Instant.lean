import RecordQuery.Calendar.Date

/-!
# Instants

An instant is a date and a time of day in UTC. A leap second is a second with a nanosecond count that
runs on past one thousand million. It belongs at the end of a minute, but any second can be one.
-/

namespace RecordQuery

/-- A time of day: seconds since midnight, and nanoseconds. -/
structure Clock where
  second : Nat
  nano : Nat
  second_lt : second < 86400
  nano_lt : nano < 2000000000
deriving DecidableEq

namespace Clock

def midnight : Clock := ⟨0, 0, by decide, by decide⟩

def of? (hour minute second nano : Nat) : Option Clock :=
  if h : hour < 24 ∧ minute < 60 ∧ second < 60 ∧ nano < 2000000000 then
    some ⟨hour * 3600 + minute * 60 + second, nano, by omega, by omega⟩
  else none

/-- A reading of a clock face, where the second 60 is the leap second. -/
def ofFace? (hour minute second nano : Nat) : Option Clock :=
  if second = 60 then of? hour minute 59 (nano + 1000000000) else of? hour minute second nano

def isLeap (c : Clock) : Bool := 1000000000 ≤ c.nano

/-- The face as hours, minutes, seconds and nanoseconds. Past one thousand million nanoseconds it
shows one second more, which is the second 60 at the end of a minute. -/
def face (c : Clock) : Nat × Nat × Nat × Nat :=
  (c.second / 3600, c.second / 60 % 60,
    if c.isLeap then (c.second % 60 + 1, c.nano - 1000000000) else (c.second % 60, c.nano))

/-- Turns the hands by whole minutes and keeps the fraction. -/
def turn (c : Clock) (minutes : Int) : Clock where
  second := ((c.second + 60 * minutes) % 86400).toNat
  nano := c.nano
  second_lt := by omega
  nano_lt := c.nano_lt

@[ext] theorem ext {c d : Clock} (second : c.second = d.second) (nano : c.nano = d.nano) :
    c = d := by
  cases c
  cases d
  cases second
  cases nano
  rfl

end Clock

structure Instant where
  date : Date
  clock : Clock
deriving DecidableEq

namespace Instant

/-- Midnight at the start of a date. -/
def ofDate (d : Date) : Instant := ⟨d, .midnight⟩

/-- The instant that clocks `east` minutes ahead of UTC show as `date` and `clock`. -/
def ofLocal? (date : Date) (clock : Clock) (east : Int) : Option Instant :=
  (date.addDays? ((clock.second - 60 * east) / 86400)).map (⟨·, clock.turn (-east)⟩)

end Instant

end RecordQuery
