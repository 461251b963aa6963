import Cron.Calendar.Zone
import Cron.Schedule.Search

/-!
# Occurrences of a schedule

An instant is an occurrence of a schedule in a zone if the zone's wall clock shows an accepted time.
`Schedule.firstAfter?` finds the first occurrence after a given instant: it searches the wall clock
from the following second on and places what it finds on the time line. A time that the zone skips,
or that lies at or before the given instant, is passed over.

The horizon is a number of years; the search ends that many years after the year it starts in.

Model of `Schedule::matches`, `next`, `next_within` and `upcoming`, and of `occurrences` of the
command line.

`Schedule.occurrences` lists the first occurrences after an instant, and a `Schedule.Walk` visits
them one after the other.

Main statement: `lt_of_firstAfter`, the first occurrence after an instant lies later than it.
-/

namespace Cron.Schedule

/-- Whether the zone's wall clock shows an accepted time. Parts of a second do not count. -/
def occursAt (s : Schedule) (z : Zone) (t : Instant) : Bool := s.accepts (z.wallTime t)

/-- The occurrence after `since` that the search finds first from a wall time on. -/
def firstFrom? (s : Schedule) (z : Zone) (since : Instant) (limit : Int) (start : WallTime) :
    Option Instant :=
  match _h : s.search limit start with
  | none => none
  | some found =>
    match (z.locate found).after? since with
    | some t => some t
    | none =>
      if _hn : found.nextSecond.date.year ≤ lastYear then
        s.firstFrom? z since limit found.nextSecond
      else none
termination_by (WallTime.endSeconds - start.seconds).toNat
decreasing_by
  have := le_of_search _h
  have := WallTime.seconds_lt_nextSecond found
  have := WallTime.seconds_lt_endSeconds _hn
  omega

/-- The last year of a search: `horizon` years after the given one, within 32 bits. -/
def yearLimit (year horizon : Int) : Int := max (-2147483648) (min 2147483647 (year + horizon))

/-- The first occurrence after `since`, at most `horizon` years ahead. -/
def firstAfter? (s : Schedule) (z : Zone) (horizon : Int) (since : Instant) : Option Instant :=
  let start := (z.wallTime since).nextSecond
  if s.isSatisfiable ∧ start.date.year ≤ lastYear then
    s.firstFrom? z since (yearLimit start.date.year horizon) start
  else none

/-- How many years ahead an occurrence is looked for, unless told otherwise. -/
def defaultHorizon : Int := 5

/-- The first occurrence after `since` within the default horizon. -/
def next? (s : Schedule) (z : Zone) (since : Instant) : Option Instant :=
  s.firstAfter? z defaultHorizon since

/-! ## One occurrence after the other -/

/-- The first `n` occurrences after `since`, each looked for from the one before; fewer if there is
no further one within the horizon. -/
def occurrences (s : Schedule) (z : Zone) (horizon : Int) : Nat → Instant → List Instant
  | 0, _ => []
  | n + 1, since =>
    match s.firstAfter? z horizon since with
    | some t => t :: s.occurrences z horizon n t
    | none => []

/-- A walk through the occurrences of a schedule. -/
structure Walk where
  schedule : Schedule
  zone : Zone
  horizon : Int
  /-- The last occurrence visited, or `none` once there was no further one. -/
  cursor : Option Instant

/-- A walk that starts behind an instant. -/
def walk (s : Schedule) (z : Zone) (since : Instant) : Walk :=
  { schedule := s, zone := z, horizon := defaultHorizon, cursor := some since }

namespace Walk

/-- The next occurrence, which becomes the last one visited. -/
def step (w : Walk) : Option Instant × Walk :=
  let found := w.cursor.bind (w.schedule.firstAfter? w.zone w.horizon)
  (found, { w with cursor := found })

/-- The results of the first `n` steps. -/
def steps (w : Walk) : Nat → List (Option Instant)
  | 0 => []
  | n + 1 => w.step.1 :: w.step.2.steps n

end Walk

/-! ## Laws -/

theorem lt_of_after? {since t : Instant} {l : Location} (h : l.after? since = some t) :
    since < t := by
  unfold Location.after? at h
  split at h
  · cases h
  · split at h
    next hlt =>
      cases h
      exact hlt
    · cases h
  · split at h
    next hlt =>
      cases h
      exact hlt
    · split at h
      next hlt =>
        cases h
        exact hlt
      · cases h

theorem lt_of_firstFrom {s : Schedule} {z : Zone} {since t : Instant} {limit : Int}
    {start : WallTime} (h : s.firstFrom? z since limit start = some t) : since < t := by
  fun_induction firstFrom? s z since limit start with
  | case1 => cases h
  | case2 _ _ _ _ hafter =>
    cases h
    exact lt_of_after? hafter
  | case3 _ _ _ _ _ ih => exact ih h
  | case4 => cases h

/-- The next occurrence lies later. -/
theorem lt_of_firstAfter {s : Schedule} {z : Zone} {horizon : Int} {since t : Instant}
    (h : s.firstAfter? z horizon since = some t) : since < t := by
  unfold firstAfter? at h
  simp only at h
  split at h
  · exact lt_of_firstFrom h
  · cases h

end Cron.Schedule
