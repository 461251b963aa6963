import Cron.Calendar.Instant

/-!
# The order of dates, wall times and instants

Dates are ordered by year, then month, then day, and day numbers follow this order. So a date is
known from its number and a wall time from its seconds, and the times from the start of a unit to
the start of the next one are those that lie in that unit.

Headlines:
* `Date.number_lt_iff`: day numbers follow the order of year, month and day;
* `WallTime.ext_seconds`: a wall time is known from its seconds;
* `WallTime.month_eq_of_lt_nextMonth`, `WallTime.date_eq_of_lt_nextDay` and the two after them: no
  other unit comes before the start of the next one;
* `WallTime.seconds_newYear_le_iff`: a year starts at its new year.
-/

namespace Cron

/-- The months in front of a month end before it begins. -/
theorem daysBeforeMonth_add_le {year : Int} {a b : Nat} (h1 : 1 ≤ a) (hab : a < b) (hb : b ≤ 12) :
    daysBeforeMonth year a + daysInMonth year a ≤ daysBeforeMonth year b := by
  induction b with
  | zero => omega
  | succ b ih =>
    have hsucc := @daysBeforeMonth_succ year b
    rcases Nat.lt_succ_iff_lt_or_eq.mp hab with hlt | rfl
    · have := ih hlt (by omega)
      have := hsucc (by omega) (by omega)
      omega
    · have := hsucc h1 (by omega)
      omega

namespace Date

theorem number_lt_of_year_lt {d e : Date} (h : d.year < e.year) : d.number < e.number := by
  have hd := (number_bounds d).2
  have he := (number_bounds e).1
  have := @daysBeforeYear_mono (d.year + 1) e.year (by omega)
  omega

theorem number_lt_of_month_lt {d e : Date} (hy : d.year = e.year) (h : d.month < e.month) :
    d.number < e.number := by
  have hmonths := @daysBeforeMonth_add_le e.year d.month e.month d.one_le_month h e.month_le
  have hd := d.day_le
  have he := e.one_le_day
  rw [hy] at hd
  simp only [number, hy]
  omega

theorem number_lt_of_day_lt {d e : Date} (hy : d.year = e.year) (hm : d.month = e.month)
    (h : d.day < e.day) : d.number < e.number := by
  simp only [number, hy, hm]
  omega

/-- Day numbers follow the order of year, month and day. -/
theorem number_lt_iff {d e : Date} :
    d.number < e.number ↔
      d.year < e.year ∨ d.year = e.year ∧ (d.month < e.month ∨ d.month = e.month ∧ d.day < e.day) := by
  constructor
  · intro h
    have hy : ¬ e.year < d.year := fun hlt => by
      have := number_lt_of_year_lt hlt
      omega
    have hm : e.year = d.year → ¬ e.month < d.month := fun heq hlt => by
      have := number_lt_of_month_lt heq hlt
      omega
    have hd : e.year = d.year → e.month = d.month → ¬ e.day < d.day := fun hy' hm' hlt => by
      have := number_lt_of_day_lt hy' hm' hlt
      omega
    have hne : ¬ (d.year = e.year ∧ d.month = e.month ∧ d.day = e.day) := by
      rintro ⟨h1, h2, h3⟩
      simp [number, h1, h2, h3] at h
    omega
  · rintro (h | ⟨hy, h | ⟨hm, h⟩⟩)
    · exact number_lt_of_year_lt h
    · exact number_lt_of_month_lt hy h
    · exact number_lt_of_day_lt hy hm h

theorem year_le_of_number_le {d e : Date} (h : d.number ≤ e.number) : d.year ≤ e.year := by
  refine Int.not_lt.mp fun hlt => ?_
  have := number_lt_of_year_lt hlt
  omega

/-- A date is known from its number. -/
theorem ext_number {d e : Date} (h : d.number = e.number) : d = e := by
  have h1 : ¬ d.number < e.number := by omega
  have h2 : ¬ e.number < d.number := by omega
  rw [number_lt_iff] at h1 h2
  cases d
  cases e
  simp only [mk.injEq]
  simp only at h1 h2
  omega

@[simp] theorem ofNumber_number (d : Date) : ofNumber d.number = d := ext_number (number_ofNumber _)

/-- What lies before the next month but not before a date is in the date's month. -/
theorem month_eq_of_lt_nextMonth {d e : Date} (hle : d.number ≤ e.number)
    (hlt : e.number < d.nextMonth.number) : e.year = d.year ∧ e.month = d.month := by
  have h1 : ¬ e.number < d.number := by omega
  have he := e.one_le_day
  have hmonth := e.one_le_month
  have hmonth' := e.month_le
  rw [number_lt_iff] at h1 hlt
  unfold nextMonth at hlt
  split at hlt
  · simp only at hlt
    omega
  · simp only at hlt
    omega

/-- The first day of a year. -/
def newYear (year : Int) : Date :=
  ⟨year, 1, 1, by decide, by decide, by decide, one_le_daysInMonth _ _⟩

theorem number_newYear_le_iff {year : Int} {d : Date} :
    (newYear year).number ≤ d.number ↔ year ≤ d.year := by
  have hm := d.one_le_month
  have hd := d.one_le_day
  rw [← Int.not_lt, number_lt_iff]
  simp only [newYear]
  omega

theorem number_nextMonth_le_newYear (d : Date) :
    d.nextMonth.number ≤ (newYear (d.year + 1)).number := by
  rw [← Int.not_lt, number_lt_iff]
  unfold nextMonth
  split <;> simp only [newYear] <;> omega

end Date

namespace WallTime

variable {t w : WallTime}

/-- The day number is the number of whole days in the seconds. -/
theorem seconds_bounds (t : WallTime) :
    t.date.number * 86400 ≤ t.seconds ∧ t.seconds < t.date.number * 86400 + 86400 := by
  have := t.hour_lt
  have := t.minute_lt
  have := t.second_lt
  simp only [seconds]
  omega

theorem number_le_of_seconds_le (h : t.seconds ≤ w.seconds) : t.date.number ≤ w.date.number := by
  have := (seconds_bounds t).1
  have := (seconds_bounds w).2
  omega

theorem year_le_of_seconds_le (h : t.seconds ≤ w.seconds) : t.date.year ≤ w.date.year :=
  Date.year_le_of_number_le (number_le_of_seconds_le h)

/-- A wall time is known from its seconds. -/
theorem ext_seconds (h : t.seconds = w.seconds) : t = w := by
  have hdate : t.date = w.date := by
    have := seconds_bounds t
    have := seconds_bounds w
    exact Date.ext_number (by omega)
  have := t.hour_lt
  have := t.minute_lt
  have := t.second_lt
  have := w.hour_lt
  have := w.minute_lt
  have := w.second_lt
  cases t
  cases w
  simp only [seconds] at h
  simp only at hdate
  subst hdate
  simp only [mk.injEq, true_and]
  simp only at *
  omega

@[simp] theorem ofSeconds_seconds (t : WallTime) : ofSeconds t.seconds = t :=
  ext_seconds (seconds_ofSeconds _)

/-! ## What lies before the start of the next unit -/

theorem month_eq_of_lt_nextMonth (hle : t.seconds ≤ w.seconds) (hlt : w.seconds < t.nextMonth.seconds) :
    w.date.year = t.date.year ∧ w.date.month = t.date.month := by
  refine Date.month_eq_of_lt_nextMonth (number_le_of_seconds_le hle) ?_
  have := (seconds_bounds w).1
  simp only [nextMonth, midnight, seconds] at hlt this
  omega

theorem date_eq_of_lt_nextDay (hle : t.seconds ≤ w.seconds) (hlt : w.seconds < t.nextDay.seconds) :
    w.date = t.date := by
  have := number_le_of_seconds_le hle
  have := (seconds_bounds w).1
  rw [seconds_nextDay] at hlt
  exact Date.ext_number (by omega)

theorem hour_eq_of_lt_nextHour (hle : t.seconds ≤ w.seconds) (hlt : w.seconds < t.nextHour.seconds) :
    w.date = t.date ∧ w.hour = t.hour := by
  have hday : t.nextHour.seconds ≤ t.nextDay.seconds := by
    have := t.hour_lt
    rw [seconds_nextHour, seconds_nextDay]
    omega
  have hdate := date_eq_of_lt_nextDay hle (Int.lt_of_lt_of_le hlt hday)
  refine ⟨hdate, ?_⟩
  have := t.minute_lt
  have := t.second_lt
  have := w.minute_lt
  have := w.second_lt
  rw [seconds_nextHour] at hlt
  simp only [seconds, hdate] at hle hlt
  omega

theorem minute_eq_of_lt_nextMinute (hle : t.seconds ≤ w.seconds)
    (hlt : w.seconds < t.nextMinute.seconds) :
    w.date = t.date ∧ w.hour = t.hour ∧ w.minute = t.minute := by
  have hhour : t.nextMinute.seconds ≤ t.nextHour.seconds := by
    have := t.minute_lt
    rw [seconds_nextMinute, seconds_nextHour]
    omega
  obtain ⟨hdate, hh⟩ := hour_eq_of_lt_nextHour hle (Int.lt_of_lt_of_le hlt hhour)
  refine ⟨hdate, hh, ?_⟩
  have := t.second_lt
  have := w.second_lt
  rw [seconds_nextMinute] at hlt
  simp only [seconds, hdate, hh] at hle hlt
  omega

theorem eq_of_lt_nextSecond (hle : t.seconds ≤ w.seconds) (hlt : w.seconds < t.nextSecond.seconds) :
    w = t := by
  rw [seconds_nextSecond] at hlt
  exact ext_seconds (by omega)

/-! ## The start of a year -/

/-- The first second of a year. -/
def newYear (year : Int) : WallTime := midnight (Date.newYear year)

theorem seconds_newYear_le_iff {year : Int} : (newYear year).seconds ≤ w.seconds ↔ year ≤ w.date.year := by
  rw [← Date.number_newYear_le_iff]
  have := seconds_bounds w
  have heq : (newYear year).seconds = (Date.newYear year).number * 86400 := by
    simp [newYear, midnight, seconds]
  omega

theorem seconds_nextMonth_le_newYear (t : WallTime) :
    t.nextMonth.seconds ≤ (newYear (t.date.year + 1)).seconds := by
  have := Date.number_nextMonth_le_newYear t.date
  simp only [nextMonth, newYear, midnight, seconds]
  omega

theorem seconds_nextDay_le_nextMonth (t : WallTime) : t.nextDay.seconds ≤ t.nextMonth.seconds := by
  have := t.date.number_lt_nextMonth
  rw [seconds_nextDay]
  simp only [nextMonth, midnight, seconds]
  omega

/-- A time that is not past the next new year is in the same year, or it is that new year. -/
theorem eq_newYear_of_year_lt {year : Int} (hle : w.seconds ≤ (newYear (year + 1)).seconds)
    (hlt : year < w.date.year) : w = newYear (year + 1) := by
  have := (@seconds_newYear_le_iff w (year + 1)).mpr hlt
  exact ext_seconds (by omega)

end WallTime

namespace Instant

variable {a b c : Instant}

theorem le_refl (a : Instant) : a ≤ a := lt_irrefl a

theorem le_of_lt (h : a < b) : a ≤ b := by
  rw [lt_iff_ticks_lt] at h
  rw [le_iff_ticks_le]
  omega

theorem not_le_of_lt (h : a < b) : ¬ b ≤ a := fun hle => hle h

theorem le_trans (h : a ≤ b) (h' : b ≤ c) : a ≤ c := by
  rw [le_iff_ticks_le] at *
  omega

theorem lt_of_le_of_lt (h : a ≤ b) (h' : b < c) : a < c := by
  rw [lt_iff_ticks_lt] at *
  rw [le_iff_ticks_le] at h
  omega

theorem lt_trichotomy (a b : Instant) : a < b ∨ a = b ∨ b < a := by
  rw [lt_iff_ticks_lt, lt_iff_ticks_lt]
  rcases Int.lt_trichotomy a.ticks b.ticks with h | h | h
  · exact .inl h
  · exact .inr (.inl (ext_ticks h))
  · exact .inr (.inr h)

theorem seconds_le_of_le (h : a ≤ b) : a.seconds ≤ b.seconds := by
  rw [le_def, lt_def] at h
  omega

/-- Whole seconds are in the order of their numbers. -/
theorem seconds_lt_of_lt (hb : b.nanos = 0) (h : a < b) : a.seconds < b.seconds := by
  rcases lt_def.mp h with h | ⟨-, h⟩
  · exact h
  · omega

end Instant

end Cron
