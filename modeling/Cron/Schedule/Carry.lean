import Cron.Schedule.Search

/-!
# Searching by carrying

`Schedule.search` goes to the start of the next unit at once. A search that only counts can do the
same by carrying: it looks at the units from the months down to the seconds, and counts a unit on,
one by one, until what it shows is allowed. When the unit comes round to its least value, the
coarser ones have changed as well, so the search begins anew with the months.

Counting on keeps the finer parts of a time. They are cut off when something is counted for the
first time, and never again, since later on they are at their least values anyway.

`Schedule.carry` is this search as a sequence of states, one for each turn of the loops of
`resolve`: `cut` is its flag `added`, and `anew` the head of its outer loop. It also gives up at the
end of the calendar, and when it begins anew past its last year it only accepts the time that it has
come to.
-/

namespace Cron

/-- The units that are counted on, coarsest first. -/
inductive TimeUnit where
  | month
  | day
  | hour
  | minute
  | second
deriving DecidableEq, Repr

namespace TimeUnit

/-- How many units are finer. -/
def rank : TimeUnit → Nat
  | month => 4
  | day => 3
  | hour => 2
  | minute => 1
  | second => 0

/-- The coarsest of the finer units. -/
def finer? : TimeUnit → Option TimeUnit
  | month => some day
  | day => some hour
  | hour => some minute
  | minute => some second
  | second => none

/-- The value that a unit comes round to. -/
def least : TimeUnit → Nat
  | month | day => 1
  | _ => 0

end TimeUnit

/-- The same day of the following month, or its last day if it is shorter. -/
def Date.followingMonth (d : Date) : Date :=
  let month := d.nextMonth
  { month with
    day := min d.day (daysInMonth month.year month.month)
    one_le_day := Nat.le_min.mpr ⟨d.one_le_day, one_le_daysInMonth _ _⟩
    day_le := Nat.min_le_right _ _ }

namespace WallTime

/-- What a wall time shows in a unit. -/
def part (t : WallTime) : TimeUnit → Nat
  | .month => t.date.month
  | .day => t.date.day
  | .hour => t.hour
  | .minute => t.minute
  | .second => t.second

/-- The start of the unit that a wall time lies in. -/
def startOf (t : WallTime) : TimeUnit → WallTime
  | .month => midnight
      { t.date with day := 1, one_le_day := Nat.one_pos, day_le := one_le_daysInMonth _ _ }
  | .day => midnight t.date
  | .hour => { midnight t.date with hour := t.hour, hour_lt := t.hour_lt }
  | .minute =>
    { midnight t.date with
      hour := t.hour
      minute := t.minute
      hour_lt := t.hour_lt
      minute_lt := t.minute_lt }
  | .second => t

/-- The time counted on by one unit, with its finer parts kept. -/
def countOn (t : WallTime) : TimeUnit → WallTime
  | .month => { t with date := t.date.followingMonth }
  | .day => ofSeconds (t.seconds + 86400)
  | .hour => ofSeconds (t.seconds + 3600)
  | .minute => ofSeconds (t.seconds + 60)
  | .second => ofSeconds (t.seconds + 1)

/-- The time counted on by one unit. Its finer parts are cut off, unless parts have been `cut` off
before. -/
def counted (t : WallTime) (unit : TimeUnit) (cut : Bool) : WallTime :=
  (if cut then t else t.startOf unit).countOn unit

end WallTime

/-- Where a search by carrying is, and whether finer parts have been cut off. -/
inductive Carry where
  /-- It begins anew, with the months. -/
  | anew (time : WallTime) (cut : Bool)
  /-- It looks at a unit, having come through the coarser ones. -/
  | looking (unit : TimeUnit) (time : WallTime) (cut : Bool)
  /-- It has ended, with what it has found. -/
  | ended (found : Option WallTime)
deriving DecidableEq

namespace Schedule

/-- Whether what a wall time shows in a unit is allowed, for a day also its day of the week. -/
def allowsPart (s : Schedule) (unit : TimeUnit) (t : WallTime) : Bool :=
  match unit with
  | .month => s.allowed.month.contains t.date.month
  | .day => s.acceptsDate t.date
  | .hour => s.allowed.hour.contains t.hour
  | .minute => s.allowed.minute.contains t.minute
  | .second => s.allowed.second.contains t.second

/-- A step of the search by carrying, with `limit` as its last year. -/
def carryStep (s : Schedule) (limit : Int) : Carry → Carry
  | .anew t cut =>
    if limit < t.date.year then .ended (if s.accepts t then some t else none)
    else .looking .month t cut
  | .looking unit t cut =>
    if s.allowsPart unit t then
      match unit.finer? with
      | some finer => .looking finer t cut
      | none => .ended (some t)
    else
      let u := t.counted unit cut
      if lastYear < u.date.year then .ended none
      else if u.part unit = unit.least then .anew u true
      else .looking unit u true
  | .ended found => .ended found

/-- The states of the search by carrying from `start` on. -/
def carry (s : Schedule) (limit : Int) (start : WallTime) : Nat → Carry
  | 0 => .anew start false
  | n + 1 => s.carryStep limit (s.carry limit start n)

end Schedule

end Cron
