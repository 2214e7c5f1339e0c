/-!
# Calendar dates

Days of the proleptic Gregorian calendar, with a year zero, from the first day of the year
-262143 to the last day of the year 262142.
-/

namespace RecordQuery

namespace Calendar

def isLeap (year : Int) : Bool := year % 4 == 0 && (year % 100 != 0 || year % 400 == 0)

def monthLength (year : Int) (month : Nat) : Nat :=
  match month with
  | 2 => if isLeap year then 29 else 28
  | 4 | 6 | 9 | 11 => 30
  | _ => 31

def firstYear : Int := -262143

def lastYear : Int := 262142

def IsDate (year : Int) (month day : Nat) : Prop :=
  firstYear ≤ year ∧ year ≤ lastYear ∧ 1 ≤ month ∧ month ≤ 12 ∧ 1 ≤ day ∧
    day ≤ monthLength year month

instance (year : Int) (month day : Nat) : Decidable (IsDate year month day) :=
  inferInstanceAs (Decidable (_ ∧ _))

end Calendar

open Calendar

structure Date where
  year : Int
  month : Nat
  day : Nat
  valid : IsDate year month day
deriving DecidableEq

namespace Date

def of? (year : Int) (month day : Nat) : Option Date :=
  if valid : IsDate year month day then some ⟨year, month, day, valid⟩ else none

@[simp] theorem of?_fields (d : Date) : of? d.year d.month d.day = some d := by
  rw [of?, dif_pos d.valid]

def next? (d : Date) : Option Date :=
  if d.day < monthLength d.year d.month then of? d.year d.month (d.day + 1)
  else if d.month < 12 then of? d.year (d.month + 1) 1
  else of? (d.year + 1) 1 1

def prev? (d : Date) : Option Date :=
  if 1 < d.day then of? d.year d.month (d.day - 1)
  else if 1 < d.month then of? d.year (d.month - 1) (monthLength d.year (d.month - 1))
  else of? (d.year - 1) 12 31

/-- The same step taken `count` times, as far as the calendar reaches. -/
def iterate (step : Date → Option Date) : Nat → Date → Option Date
  | 0, d => some d
  | count + 1, d => (step d).bind (iterate step count)

def addDays? (d : Date) : Int → Option Date
  | .ofNat count => iterate next? count d
  | .negSucc count => iterate prev? (count + 1) d

end Date

end RecordQuery
