import Cron.Calendar.WallTime
import Cron.Schedule.Basic

/-!
# Searching the wall clock

`Schedule.accepts` says whether a wall time shows an allowed value in each of the six fields.
`Schedule.search` finds the first accepted time from a given one on: while some field shows a value
that is not allowed, it goes to the start of the next unit of the coarsest such field, since no time
before that can be accepted.

Model of `resolve`, `matches_local` and `day_matches`, with each loop of `resolve` gone through at
once; `Schedule.carry` goes through them step by step.

The search gives up at the end of the calendar. Once it is past its last year, it only accepts the
time that it has come to.

Headlines:
* `advance?_eq_none_iff`: there is no step exactly where the time is accepted;
* `seconds_lt_of_advance?`: a step goes forward, so the search ends;
* `le_of_search`, `accepts_of_search`: what is found is accepted and not before the start.
-/

namespace Cron.Schedule

/-- Whether the day of the month and the day of the week are both allowed. -/
def acceptsDate (s : Schedule) (d : Date) : Bool :=
  s.allowed.dayOfMonth.contains d.day && s.allowed.dayOfWeek.contains d.dayOfWeek

/-- Whether all six fields of a wall time are allowed. -/
def accepts (s : Schedule) (t : WallTime) : Bool :=
  s.allowed.month.contains t.date.month && s.acceptsDate t.date
    && s.allowed.hour.contains t.hour && s.allowed.minute.contains t.minute
    && s.allowed.second.contains t.second

/-- The start of the next unit of the coarsest field that is not allowed. -/
def advance? (s : Schedule) (t : WallTime) : Option WallTime :=
  if !s.allowed.month.contains t.date.month then some t.nextMonth
  else if !s.acceptsDate t.date then some t.nextDay
  else if !s.allowed.hour.contains t.hour then some t.nextHour
  else if !s.allowed.minute.contains t.minute then some t.nextMinute
  else if !s.allowed.second.contains t.second then some t.nextSecond
  else none

theorem advance?_eq_none_iff {s : Schedule} {t : WallTime} :
    s.advance? t = none ↔ s.accepts t = true := by
  unfold advance? accepts
  cases s.allowed.month.contains t.date.month <;> cases s.acceptsDate t.date <;>
    cases s.allowed.hour.contains t.hour <;> cases s.allowed.minute.contains t.minute <;>
    cases s.allowed.second.contains t.second <;> simp

theorem seconds_lt_of_advance? {s : Schedule} {t u : WallTime} (h : s.advance? t = some u) :
    t.seconds < u.seconds := by
  unfold advance? at h
  split at h
  · cases h
    exact t.seconds_lt_nextMonth
  split at h
  · cases h
    exact t.seconds_lt_nextDay
  split at h
  · cases h
    exact t.seconds_lt_nextHour
  split at h
  · cases h
    exact t.seconds_lt_nextMinute
  split at h
  · cases h
    exact t.seconds_lt_nextSecond
  · cases h

/-- The first accepted time from `t` on, with `limit` as the last year of the search. -/
def search (s : Schedule) (limit : Int) (t : WallTime) : Option WallTime :=
  if limit < t.date.year then
    if s.accepts t then some t else none
  else
    match _h : s.advance? t with
    | none => some t
    | some u => if _hu : u.date.year ≤ lastYear then s.search limit u else none
termination_by (WallTime.endSeconds - t.seconds).toNat
decreasing_by
  have := seconds_lt_of_advance? _h
  have := WallTime.seconds_lt_endSeconds _hu
  omega

/-! ## Laws -/

/-- What is found does not lie before the start. -/
theorem le_of_search {s : Schedule} {limit : Int} {t found : WallTime}
    (h : s.search limit t = some found) : t.seconds ≤ found.seconds := by
  fun_induction search s limit t with
  | case1 t _ _ =>
    cases h
    exact Int.le_refl _
  | case2 => cases h
  | case3 t _ _ =>
    cases h
    exact Int.le_refl _
  | case4 t _ u hu _ ih => exact Int.le_trans (Int.le_of_lt (seconds_lt_of_advance? hu)) (ih h)
  | case5 => cases h

/-- What is found is accepted. -/
theorem accepts_of_search {s : Schedule} {limit : Int} {t found : WallTime}
    (h : s.search limit t = some found) : s.accepts found = true := by
  fun_induction search s limit t with
  | case1 t _ hacc =>
    cases h
    exact hacc
  | case2 => cases h
  | case3 t _ hnone =>
    cases h
    exact advance?_eq_none_iff.mp hnone
  | case4 _ _ _ _ _ ih => exact ih h
  | case5 => cases h

end Cron.Schedule
