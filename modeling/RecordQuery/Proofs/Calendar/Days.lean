import Mathlib.Order.Basic
import RecordQuery.Calendar.Instant

/-!
# Counting days

Each date has a number: the days of the years and months before it, and its day. Steps from one date
to the next or the previous one change the number by one, and no two dates share a number, so a
number of days leads to the one date that lies that far away, over the ends of months and of leap
years. With the seconds of a clock the same numbers tell which instant a clock shows that runs
ahead of UTC or behind it.
-/

namespace RecordQuery

namespace Calendar

/-! ### Years and months -/

def yearLength (year : Int) : Nat := if isLeap year then 366 else 365

/-- The number of the last day before the year, where a leap day comes every four years, but not in
three of four centuries. -/
def yearStart (year : Int) : Int :=
  365 * year + (year - 1) / 4 - (year - 1) / 100 + (year - 1) / 400

/-- The days of the year before the month. -/
def monthStart (year : Int) : Nat → Nat
  | month + 2 => monthStart year (month + 1) + monthLength year (month + 1)
  | _ => 0

theorem yearStart_succ (year : Int) : yearStart (year + 1) = yearStart year + yearLength year := by
  have leap : isLeap year = true ↔ year % 4 = 0 ∧ (year % 100 ≠ 0 ∨ year % 400 = 0) := by
    simp [isLeap]
  have before : year + 1 - 1 = year := by omega
  unfold yearStart yearLength
  rw [before]
  by_cases known : isLeap year = true
  · obtain ⟨fourth, century⟩ := leap.mp known
    simp only [known, if_true]
    omega
  · have days := mt leap.mpr known
    simp only [known, Bool.false_eq_true, if_false]
    omega

theorem yearStart_mono {early late : Int} (h : early ≤ late) : yearStart early ≤ yearStart late := by
  obtain ⟨count, rfl⟩ := Int.le.dest h
  clear h
  induction count with
  | zero => exact Int.le_of_eq (congrArg yearStart (Int.add_zero early).symm)
  | succ count ih =>
    have next := yearStart_succ (early + count)
    have later : early + ((count + 1 : Nat) : Int) = early + count + 1 := by omega
    rw [later]
    omega

theorem monthLength_pos (year : Int) (month : Nat) : 1 ≤ monthLength year month := by
  unfold monthLength
  split
  · split <;> decide
  all_goals decide

theorem monthStart_succ {month : Nat} (positive : 1 ≤ month) (year : Int) :
    monthStart year (month + 1) = monthStart year month + monthLength year month := by
  obtain ⟨before, rfl⟩ := Nat.exists_eq_add_of_le' positive
  rfl

theorem monthStart_mono {early late : Nat} (positive : 1 ≤ early) (h : early ≤ late) (year : Int) :
    monthStart year early ≤ monthStart year late := by
  obtain ⟨count, rfl⟩ := Nat.le.dest h
  clear h
  induction count with
  | zero => exact Nat.le_refl _
  | succ count ih =>
    have next := monthStart_succ (Nat.le_add_right_of_le positive : 1 ≤ early + count) year
    rw [← Nat.add_assoc]
    omega

/-- The twelve months fill the year. -/
theorem monthStart_end (year : Int) : monthStart year 13 = yearLength year := by
  simp only [monthStart, yearLength, monthLength]
  cases isLeap year <;> rfl

theorem december_end (year : Int) : monthStart year 12 + 31 = yearLength year := by
  rw [← monthStart_end]
  exact (monthStart_succ (by decide) year).symm

end Calendar

namespace Date

open Calendar

variable {d e : Date}

/-! ### The number of a date -/

def days (d : Date) : Int := yearStart d.year + monthStart d.year d.month + d.day

theorem yearStart_lt_days (d : Date) : yearStart d.year < d.days := by
  have first := d.valid.2.2.2.2.1
  unfold days
  omega

/-- A date comes before the month after its own. -/
theorem days_le_monthStart (d : Date) :
    d.days ≤ yearStart d.year + monthStart d.year (d.month + 1) := by
  obtain ⟨_, _, first, _, _, last⟩ := d.valid
  have next := monthStart_succ first d.year
  unfold days
  omega

theorem days_le_yearStart (d : Date) : d.days ≤ yearStart (d.year + 1) := by
  have december : d.month + 1 ≤ 13 := Nat.succ_le_succ d.valid.2.2.2.1
  have month := monthStart_mono (Nat.le_add_left 1 d.month) december d.year
  have before := d.days_le_monthStart
  rw [monthStart_end] at month
  rw [yearStart_succ]
  omega

theorem days_lt_of_year_lt (h : d.year < e.year) : d.days < e.days := by
  calc
    d.days ≤ yearStart (d.year + 1) := d.days_le_yearStart
    _ ≤ yearStart e.year := yearStart_mono h
    _ < e.days := e.yearStart_lt_days

theorem year_lt_of_days_le {year : Int} (h : d.days ≤ yearStart year) : d.year < year := by
  by_contra reached
  have start := yearStart_mono (Int.not_lt.mp reached)
  have after := d.yearStart_lt_days
  omega

theorem le_year_of_lt_days {year : Int} (h : yearStart year < d.days) : year ≤ d.year := by
  by_contra before
  have start : yearStart (d.year + 1) ≤ yearStart year := yearStart_mono (Int.not_le.mp before)
  have last := d.days_le_yearStart
  omega

theorem days_lt_of_month_lt (year : d.year = e.year) (h : d.month < e.month) : d.days < e.days := by
  have month : monthStart d.year (d.month + 1) ≤ monthStart d.year e.month :=
    monthStart_mono (Nat.le_add_left 1 d.month) h d.year
  have before := d.days_le_monthStart
  have day := e.valid.2.2.2.2.1
  have number : e.days = yearStart d.year + monthStart d.year e.month + e.day := by
    rw [days, year]
  omega

/-- No two dates have the same number. -/
theorem days_injective (h : d.days = e.days) : d = e := by
  have year : d.year = e.year := by
    rcases Int.lt_trichotomy d.year e.year with before | same | after
    · exact absurd h (Int.ne_of_lt (days_lt_of_year_lt before))
    · exact same
    · exact absurd h.symm (Int.ne_of_lt (days_lt_of_year_lt after))
  have month : d.month = e.month := by
    rcases Nat.lt_trichotomy d.month e.month with before | same | after
    · exact absurd h (Int.ne_of_lt (days_lt_of_month_lt year before))
    · exact same
    · exact absurd h.symm (Int.ne_of_lt (days_lt_of_month_lt year.symm after))
  have day : d.day = e.day := by
    unfold days at h
    rw [year, month] at h
    omega
  cases d
  cases e
  cases year
  cases month
  cases day
  rfl

/-! ### Steps -/

theorem of?_eq_some {year : Int} {month day : Nat} (valid : IsDate year month day) :
    of? year month day = some ⟨year, month, day, valid⟩ := dif_pos valid

/-- As long as some date comes later there is a next date, and it has the next number. -/
theorem exists_next? (later : d.days < e.days) :
    ∃ next, d.next? = some next ∧ next.days = d.days + 1 := by
  obtain ⟨lower, upper, first, december, start, last⟩ := d.valid
  have month := monthStart_succ first d.year
  unfold next?
  split
  · next inside =>
    refine ⟨_, of?_eq_some ⟨lower, upper, first, december, Nat.le_add_left .., inside⟩, ?_⟩
    simp only [days]
    omega
  split
  · next early =>
    refine ⟨_, of?_eq_some ⟨lower, upper, Nat.le_add_left .., early, Nat.le_refl 1,
      monthLength_pos ..⟩, ?_⟩
    simp only [days]
    omega
  · next ended late =>
    have twelfth : d.month = 12 := by omega
    have number : d.days = yearStart (d.year + 1) := by
      have whole := december_end d.year
      have long : monthLength d.year 12 = 31 := rfl
      rw [twelfth, long] at ended last
      rw [yearStart_succ, days, twelfth]
      omega
    have year : d.year + 1 ≤ e.year := le_year_of_lt_days (number ▸ later)
    have bound := e.valid.2.1
    refine ⟨_, of?_eq_some ⟨by omega, by omega, Nat.le_refl 1, by decide, Nat.le_refl 1,
      monthLength_pos ..⟩, ?_⟩
    rw [number]
    exact congrArg (· + (1 : Int)) (Int.add_zero _)

/-- As long as some date comes earlier there is a previous date, and it has the previous number. -/
theorem exists_prev? (earlier : e.days < d.days) :
    ∃ prev, d.prev? = some prev ∧ prev.days = d.days - 1 := by
  obtain ⟨lower, upper, first, december, start, last⟩ := d.valid
  unfold prev?
  split
  · next inside =>
    refine ⟨_, of?_eq_some ⟨lower, upper, first, december, by omega, by omega⟩, ?_⟩
    simp only [days]
    omega
  split
  · next late =>
    have month := monthStart_succ (Nat.le_sub_one_of_lt late) d.year
    rw [Nat.sub_add_cancel first] at month
    refine ⟨_, of?_eq_some ⟨lower, upper, by omega, by omega, monthLength_pos ..,
      Nat.le_refl _⟩, ?_⟩
    simp only [days]
    omega
  · next begun early =>
    have number : d.days = yearStart d.year + 1 := by
      have january : d.month = 1 := by omega
      have none_before : monthStart d.year 1 = 0 := rfl
      rw [days, january]
      omega
    have year : e.year < d.year := year_lt_of_days_le (by omega)
    have bound := e.valid.1
    have whole := december_end (d.year - 1)
    have next := yearStart_succ (d.year - 1)
    rw [Int.sub_add_cancel] at next
    refine ⟨_, of?_eq_some ⟨by omega, by omega, by decide, by decide, by decide,
      Nat.le_refl 31⟩, ?_⟩
    simp only [days] at number ⊢
    omega

/-- Repeated steps in one direction lead to any date that lies there. -/
theorem iterate_eq_some {step : Date → Option Date} (way : Int) (unit : way = 1 ∨ way = -1)
    (steps : ∀ d e : Date, 0 < way * (e.days - d.days) →
      ∃ next, step d = some next ∧ next.days = d.days + way) (count : Nat) :
    ∀ d : Date, e.days = d.days + way * count → iterate step count d = some e := by
  induction count with
  | zero =>
    intro d same
    exact congrArg some (days_injective (by omega))
  | succ count ih =>
    intro d apart
    have ahead : 0 < way * (e.days - d.days) := by
      rcases unit with rfl | rfl <;> omega
    obtain ⟨next, stepped, number⟩ := steps d e ahead
    rw [iterate, stepped]
    refine ih next ?_
    rcases unit with rfl | rfl <;> omega

/-- The date that lies a number of days away is found. -/
theorem addDays?_eq_some {n : Int} (h : e.days = d.days + n) : d.addDays? n = some e := by
  cases n with
  | ofNat count =>
    refine iterate_eq_some 1 (.inl rfl) (fun d e ahead => ?_) count d ?_
    · exact exists_next? (e := e) (by omega)
    · rw [h, Int.one_mul]
      rfl
  | negSucc count =>
    refine iterate_eq_some (-1) (.inr rfl) (fun d e ahead => ?_) (count + 1) d ?_
    · exact exists_prev? (e := e) (by omega)
    · rw [h]
      omega

end Date

/-! ### Instants -/

/-- Clocks that run `east` minutes ahead of UTC show the instant as the date and the time. Between
two readings of a clock lie as many seconds as there are on it, and a leap second stays one. -/
structure Instant.Shows (t : Instant) (east : Int) (date : Date) (clock : Clock) : Prop where
  time : 86400 * date.days + clock.second = 86400 * t.date.days + t.clock.second + 60 * east
  nano : clock.nano = t.clock.nano

/-- An instant is found from what a clock shows. -/
theorem Instant.Shows.ofLocal? {t : Instant} {east : Int} {date : Date} {clock : Clock}
    (shows : t.Shows east date clock) : ofLocal? date clock east = some t := by
  have time := shows.time
  have second := t.clock.second_lt
  have day : t.date.days = date.days + ((clock.second : Int) - 60 * east) / 86400 := by omega
  have turned : clock.turn (-east) = t.clock := by
    refine Clock.ext ?_ shows.nano
    simp only [Clock.turn]
    omega
  rw [Instant.ofLocal?, Date.addDays?_eq_some day, turned]
  rfl

end RecordQuery
