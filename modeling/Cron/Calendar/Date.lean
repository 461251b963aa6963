/-!
# Dates of the Gregorian calendar

Dates of the Gregorian calendar without a first or a last year; year 0 is the year before year 1. A
`Date` is a year, a month from 1 to 12 and a day from 1 to the length of that month. This is the
calendar that chrono documents for its `NaiveDate`, which has the same years but ends
(`WallTime.inCalendar`).

`Date.number` counts days from 1 January 1970 and `Date.ofNumber` finds the date of a count.

Headlines:
* `number_nextDay`, `number_nextMonth`: the successors of a date count on by one day and to the
  end of the month;
* `number_ofNumber`: every count is the count of its date.
-/

namespace Cron

/-! ## Years and months -/

/-- Every fourth year is a leap year, but of the hundreds only every fourth. -/
def isLeapYear (year : Int) : Bool := year % 4 == 0 && (year % 100 != 0 || year % 400 == 0)

/-- The number of days of a month. -/
def daysInMonth (year : Int) (month : Nat) : Nat :=
  match month with
  | 2 => if isLeapYear year then 29 else 28
  | 4 | 6 | 9 | 11 => 30
  | _ => 31

/-- The number of days of a year in front of a month. -/
def daysBeforeMonth (year : Int) (month : Nat) : Nat :=
  let leapDay := if isLeapYear year then 1 else 0
  match month with
  | 2 => 31
  | 3 => 59 + leapDay
  | 4 => 90 + leapDay
  | 5 => 120 + leapDay
  | 6 => 151 + leapDay
  | 7 => 181 + leapDay
  | 8 => 212 + leapDay
  | 9 => 243 + leapDay
  | 10 => 273 + leapDay
  | 11 => 304 + leapDay
  | 12 => 334 + leapDay
  | _ => 0

/-- The number of days of a year. -/
def daysInYear (year : Int) : Nat := if isLeapYear year then 366 else 365

/-- The number of days from the start of year 0 to the start of a year, negative before it. -/
def daysBeforeYear (year : Int) : Int :=
  365 * year + (year + 3) / 4 - (year + 99) / 100 + (year + 399) / 400

theorem isLeapYear_iff (year : Int) :
    isLeapYear year = true ↔ year % 4 = 0 ∧ (year % 100 ≠ 0 ∨ year % 400 = 0) := by
  simp [isLeapYear]

theorem daysBeforeYear_succ (year : Int) :
    daysBeforeYear (year + 1) = daysBeforeYear year + daysInYear year := by
  unfold daysBeforeYear daysInYear
  split
  next h =>
    rw [isLeapYear_iff] at h
    omega
  next h =>
    rw [isLeapYear_iff] at h
    omega

theorem daysBeforeYear_mono {a b : Int} (h : a ≤ b) : daysBeforeYear a ≤ daysBeforeYear b := by
  unfold daysBeforeYear
  omega

theorem one_le_daysInMonth (year : Int) (month : Nat) : 1 ≤ daysInMonth year month := by
  unfold daysInMonth
  split <;> (try split) <;> omega

theorem daysBeforeMonth_succ {year : Int} {month : Nat} (h1 : 1 ≤ month) (h2 : month < 12) :
    daysBeforeMonth year (month + 1) = daysBeforeMonth year month + daysInMonth year month := by
  unfold daysBeforeMonth daysInMonth
  have : month = 1 ∨ month = 2 ∨ month = 3 ∨ month = 4 ∨ month = 5 ∨ month = 6 ∨ month = 7 ∨
      month = 8 ∨ month = 9 ∨ month = 10 ∨ month = 11 := by omega
  rcases this with rfl | rfl | rfl | rfl | rfl | rfl | rfl | rfl | rfl | rfl | rfl <;>
    cases isLeapYear year <;> rfl

theorem daysBeforeMonth_december (year : Int) :
    daysBeforeMonth year 12 + daysInMonth year 12 = daysInYear year := by
  unfold daysBeforeMonth daysInMonth daysInYear
  cases isLeapYear year <;> rfl

/-! ## Dates -/

/-- A day of the calendar. -/
structure Date where
  year : Int
  month : Nat
  day : Nat
  one_le_month : 1 ≤ month
  month_le : month ≤ 12
  one_le_day : 1 ≤ day
  day_le : day ≤ daysInMonth year month
deriving DecidableEq

namespace Date

/-- The date of a year, a month and a day, if there is one. -/
def of? (year : Int) (month day : Nat) : Option Date :=
  if h : 1 ≤ month ∧ month ≤ 12 ∧ 1 ≤ day ∧ day ≤ daysInMonth year month then
    some ⟨year, month, day, h.1, h.2.1, h.2.2.1, h.2.2.2⟩
  else none

/-- The number of days from the start of year 0 to 1 January 1970. -/
def epoch : Int := 719528

/-- The number of days since 1 January 1970, negative before it. -/
def number (d : Date) : Int :=
  daysBeforeYear d.year + daysBeforeMonth d.year d.month + d.day - 1 - epoch

/-- The day of the week, with Sunday as 0. The day with number 0 was a Thursday. -/
def dayOfWeek (d : Date) : Nat := ((d.number + 4) % 7).toNat

/-- The first day of the following month. -/
def nextMonth (d : Date) : Date :=
  if h : d.month < 12 then
    ⟨d.year, d.month + 1, 1, by omega, by omega, by omega, one_le_daysInMonth _ _⟩
  else
    ⟨d.year + 1, 1, 1, by omega, by omega, by omega, one_le_daysInMonth _ _⟩

/-- The following day. -/
def nextDay (d : Date) : Date :=
  if h : d.day < daysInMonth d.year d.month then
    { d with day := d.day + 1, one_le_day := by omega, day_le := h }
  else d.nextMonth

/-! ## The date of a day number -/

/-- The year that holds the day `n` days after the start of year 0. Years are 146097 / 400 days
long on average, so the quotient is off by one year at most. -/
def yearOfDay (n : Int) : Int :=
  let year := n * 400 / 146097
  if n < daysBeforeYear year then year - 1
  else if daysBeforeYear (year + 1) ≤ n then year + 1
  else year

/-- The month and day that lie `rest` days after the start of `month`, looking through at most
`later` further months. -/
def monthAndDay (year : Int) : (later month rest : Nat) → Nat × Nat
  | 0, month, rest => (month, rest + 1)
  | later + 1, month, rest =>
    if rest < daysInMonth year month then (month, rest + 1)
    else monthAndDay year later (month + 1) (rest - daysInMonth year month)

theorem yearOfDay_bounds (n : Int) :
    daysBeforeYear (yearOfDay n) ≤ n ∧ n < daysBeforeYear (yearOfDay n + 1) := by
  unfold yearOfDay
  simp only
  split
  next h =>
    refine ⟨?_, by rw [Int.sub_add_cancel]; exact h⟩
    unfold daysBeforeYear
    omega
  next h1 =>
    split
    next h2 =>
      refine ⟨h2, ?_⟩
      unfold daysBeforeYear
      omega
    next h2 => exact ⟨by omega, by omega⟩

theorem monthAndDay_valid {year : Int} {later month rest : Nat} (h1 : 1 ≤ month)
    (h2 : month + later = 12) (h3 : daysBeforeMonth year month + rest < daysInYear year) :
    1 ≤ (monthAndDay year later month rest).1 ∧ (monthAndDay year later month rest).1 ≤ 12 ∧
      1 ≤ (monthAndDay year later month rest).2 ∧
      (monthAndDay year later month rest).2 ≤
        daysInMonth year (monthAndDay year later month rest).1 ∧
      daysBeforeMonth year (monthAndDay year later month rest).1 +
        (monthAndDay year later month rest).2 = daysBeforeMonth year month + rest + 1 := by
  induction later generalizing month rest with
  | zero =>
    obtain rfl : month = 12 := by omega
    have := daysBeforeMonth_december year
    simp only [monthAndDay]
    omega
  | succ later ih =>
    unfold monthAndDay
    split
    next h => exact ⟨h1, by omega, by omega, h, rfl⟩
    next h =>
      have hs := @daysBeforeMonth_succ year month h1 (by omega)
      have hrec := @ih (month + 1) (rest - daysInMonth year month) (by omega)
        (by omega) (by omega)
      refine ⟨hrec.1, hrec.2.1, hrec.2.2.1, hrec.2.2.2.1, ?_⟩
      have := hrec.2.2.2.2
      omega

theorem rest_lt_daysInYear (n : Int) :
    (n - daysBeforeYear (yearOfDay n)).toNat < daysInYear (yearOfDay n) := by
  have h := yearOfDay_bounds n
  rw [daysBeforeYear_succ] at h
  omega

/-- The date that lies a number of days after 1 January 1970. -/
def ofNumber (n : Int) : Date :=
  let day := n + epoch
  let year := yearOfDay day
  let rest := (day - daysBeforeYear year).toNat
  let split := monthAndDay year 11 1 rest
  have h := @monthAndDay_valid year 11 1 rest
    (by omega) (by omega) (by simpa [daysBeforeMonth] using rest_lt_daysInYear day)
  ⟨year, split.1, split.2, h.1, h.2.1, h.2.2.1, h.2.2.2.1⟩

/-! ## Laws -/

@[simp] theorem number_ofNumber (n : Int) : (ofNumber n).number = n := by
  have h := (@monthAndDay_valid (yearOfDay (n + epoch)) 11 1
    (n + epoch - daysBeforeYear (yearOfDay (n + epoch))).toNat (by omega) (by omega)
    (by simpa [daysBeforeMonth] using rest_lt_daysInYear (n + epoch))).2.2.2.2
  have hb := (yearOfDay_bounds (n + epoch)).1
  have hzero : daysBeforeMonth (yearOfDay (n + epoch)) 1 = 0 := rfl
  simp only [number, ofNumber]
  omega

theorem number_nextMonth (d : Date) :
    d.nextMonth.number = d.number + (daysInMonth d.year d.month - d.day : Int) + 1 := by
  have h1 := d.one_le_month
  have h2 := d.month_le
  unfold nextMonth
  split
  next h =>
    have := @daysBeforeMonth_succ d.year d.month h1 h
    simp only [number]
    omega
  next h =>
    have hm : d.month = 12 := by omega
    have hdec := daysBeforeMonth_december d.year
    have hy := daysBeforeYear_succ d.year
    have hzero : daysBeforeMonth (d.year + 1) 1 = 0 := rfl
    simp only [number, hm]
    omega

theorem number_nextDay (d : Date) : d.nextDay.number = d.number + 1 := by
  unfold nextDay
  split
  next h =>
    simp only [number]
    omega
  next h =>
    have := d.day_le
    rw [number_nextMonth]
    omega

theorem number_lt_nextMonth (d : Date) : d.number < d.nextMonth.number := by
  have := d.day_le
  rw [number_nextMonth]
  omega

/-- A date lies within its year. -/
theorem number_bounds (d : Date) :
    daysBeforeYear d.year ≤ d.number + epoch ∧ d.number + epoch < daysBeforeYear (d.year + 1) := by
  have h1 := d.one_le_month
  have h2 := d.month_le
  have h3 := d.one_le_day
  have h4 := d.day_le
  have hend : daysBeforeMonth d.year d.month + daysInMonth d.year d.month ≤ daysInYear d.year := by
    unfold daysBeforeMonth daysInMonth daysInYear
    have : d.month = 1 ∨ d.month = 2 ∨ d.month = 3 ∨ d.month = 4 ∨ d.month = 5 ∨ d.month = 6 ∨
        d.month = 7 ∨ d.month = 8 ∨ d.month = 9 ∨ d.month = 10 ∨ d.month = 11 ∨ d.month = 12 := by
      omega
    rcases this with h | h | h | h | h | h | h | h | h | h | h | h <;> rw [h] <;>
      cases isLeapYear d.year <;> decide
  rw [daysBeforeYear_succ]
  unfold number
  omega

end Date

end Cron
