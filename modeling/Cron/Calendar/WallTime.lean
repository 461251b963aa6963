import Cron.Calendar.Date

/-!
# Wall-clock times

A `WallTime` is what a clock on the wall shows to the second: a date, an hour, a minute and a
second. `WallTime.seconds` counts the seconds since 1970 began on that clock, and
`WallTime.ofSeconds` finds the time of a count.

Times come in units nested in each other: seconds, minutes, hours, days and months. For each unit
there is the start of the next one, which lies later (`seconds_lt_nextMonth` and its siblings).

The calendar runs from the start of year -262143 to the end of year 262142: those are the bounds of
chrono's `NaiveDateTime`, whose checked operations give nothing beyond. Arithmetic on wall times
does not stop there; `WallTime.inCalendar` says whether a time lies within.
-/

namespace Cron

/-- The first year of the calendar. -/
def firstYear : Int := -262143

/-- The last year of the calendar. -/
def lastYear : Int := 262142

/-- A time of day on a date, to the second. -/
structure WallTime where
  date : Date
  hour : Nat
  minute : Nat
  second : Nat
  hour_lt : hour < 24
  minute_lt : minute < 60
  second_lt : second < 60
deriving DecidableEq

namespace WallTime

/-- The start of a day. -/
def midnight (d : Date) : WallTime := ⟨d, 0, 0, 0, by decide, by decide, by decide⟩

/-- The time with the given parts, if they are in range. -/
def of? (date : Date) (hour minute second : Nat) : Option WallTime :=
  if h : hour < 24 ∧ minute < 60 ∧ second < 60 then
    some ⟨date, hour, minute, second, h.1, h.2.1, h.2.2⟩
  else none

/-- The seconds since the start of 1970 on this clock. -/
def seconds (t : WallTime) : Int :=
  t.date.number * 86400 + t.hour * 3600 + t.minute * 60 + t.second

/-- The time that many seconds after the start of 1970. -/
def ofSeconds (n : Int) : WallTime :=
  let day := n / 86400
  let rest := (n % 86400).toNat
  ⟨Date.ofNumber day, rest / 3600, rest / 60 % 60, rest % 60, by omega, by omega, by omega⟩

/-- Whether the time lies in the calendar. -/
def inCalendar (t : WallTime) : Bool := firstYear ≤ t.date.year && t.date.year ≤ lastYear

/-! ## The start of the next unit -/

/-- The start of the following month. -/
def nextMonth (t : WallTime) : WallTime := midnight t.date.nextMonth

/-- The start of the following day. -/
def nextDay (t : WallTime) : WallTime := midnight t.date.nextDay

/-- The start of the following hour. -/
def nextHour (t : WallTime) : WallTime :=
  if h : t.hour + 1 < 24 then ⟨t.date, t.hour + 1, 0, 0, h, by decide, by decide⟩ else t.nextDay

/-- The start of the following minute. -/
def nextMinute (t : WallTime) : WallTime :=
  if h : t.minute + 1 < 60 then ⟨t.date, t.hour, t.minute + 1, 0, t.hour_lt, h, by decide⟩
  else t.nextHour

/-- The following second. -/
def nextSecond (t : WallTime) : WallTime :=
  if h : t.second + 1 < 60 then { t with second := t.second + 1, second_lt := h }
  else t.nextMinute

/-! ## Laws -/

@[simp] theorem seconds_ofSeconds (n : Int) : (ofSeconds n).seconds = n := by
  simp only [seconds, ofSeconds, Date.number_ofNumber]
  omega

theorem seconds_nextDay (t : WallTime) : t.nextDay.seconds = t.date.number * 86400 + 86400 := by
  simp only [nextDay, midnight, seconds, Date.number_nextDay]
  omega

theorem seconds_nextHour (t : WallTime) :
    t.nextHour.seconds = t.date.number * 86400 + t.hour * 3600 + 3600 := by
  have := t.hour_lt
  unfold nextHour
  split
  next h =>
    simp only [seconds]
    omega
  next h =>
    rw [seconds_nextDay]
    omega

theorem seconds_nextMinute (t : WallTime) :
    t.nextMinute.seconds = t.date.number * 86400 + t.hour * 3600 + t.minute * 60 + 60 := by
  have := t.minute_lt
  unfold nextMinute
  split
  next h =>
    simp only [seconds]
    omega
  next h =>
    rw [seconds_nextHour]
    omega

theorem seconds_nextSecond (t : WallTime) : t.nextSecond.seconds = t.seconds + 1 := by
  have := t.second_lt
  unfold nextSecond
  split
  next h =>
    simp only [seconds]
    omega
  next h =>
    rw [seconds_nextMinute, seconds]
    omega

theorem seconds_lt_nextMonth (t : WallTime) : t.seconds < t.nextMonth.seconds := by
  have := t.hour_lt
  have := t.minute_lt
  have := t.second_lt
  have := Date.number_lt_nextMonth t.date
  simp only [nextMonth, midnight, seconds]
  omega

theorem seconds_lt_nextDay (t : WallTime) : t.seconds < t.nextDay.seconds := by
  have := t.hour_lt
  have := t.minute_lt
  have := t.second_lt
  rw [seconds_nextDay, seconds]
  omega

theorem seconds_lt_nextHour (t : WallTime) : t.seconds < t.nextHour.seconds := by
  have := t.minute_lt
  have := t.second_lt
  rw [seconds_nextHour, seconds]
  omega

theorem seconds_lt_nextMinute (t : WallTime) : t.seconds < t.nextMinute.seconds := by
  have := t.second_lt
  rw [seconds_nextMinute, seconds]
  omega

theorem seconds_lt_nextSecond (t : WallTime) : t.seconds < t.nextSecond.seconds := by
  rw [seconds_nextSecond]
  omega

/-! ## The end of the calendar -/

/-- The second after the last one of the calendar. -/
def endSeconds : Int := (daysBeforeYear (lastYear + 1) - Date.epoch) * 86400

theorem seconds_lt_endSeconds {t : WallTime} (h : t.date.year ≤ lastYear) :
    t.seconds < endSeconds := by
  have h1 := (Date.number_bounds t.date).2
  have h2 := @daysBeforeYear_mono (t.date.year + 1) (lastYear + 1) (by omega)
  have := t.hour_lt
  have := t.minute_lt
  have := t.second_lt
  simp only [seconds, endSeconds]
  omega

end WallTime

end Cron
