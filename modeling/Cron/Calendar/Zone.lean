import Cron.Calendar.Instant

/-!
# Time zones

A zone says how far its wall clock is ahead of UTC: by no time, by a fixed number of seconds, or by
an amount that changes at given instants.

Where the clock is set back, some wall times are shown twice; where it is set forward, some are not
shown at all. `Zone.secondsShowing` lists the seconds at which a wall time is shown, `Zone.locate`
keeps the first and the last of them.

Model of chrono's `TimeZone`: the offset at an instant, and the instants at which a wall time is shown
(`from_local_datetime`, whose results are those of `Location`). A zone is given by its transitions;
out of scope is the data base from which a host has them.
-/

namespace Cron

/-- A rule for wall clocks. -/
inductive Zone where
  | utc
  /-- Seconds ahead of UTC, always. -/
  | fixed (offset : Int)
  /-- Seconds ahead of UTC at first, and the changes: from which second on, how far ahead. The
  changes are in ascending order. -/
  | shifting (base : Int) (shifts : List (Int × Int))
deriving DecidableEq

/-- Where a wall time lies on the time line. -/
inductive Location where
  /-- The wall clock never shows it. -/
  | skipped
  /-- It is shown once. -/
  | once (t : Instant)
  /-- It is shown several times, first and last at these instants. -/
  | repeated (first last : Instant)
deriving DecidableEq

/-- The instant of a location that counts after `since`: the first that is later. -/
def Location.after? (since : Instant) : Location → Option Instant
  | .skipped => none
  | .once t => if since < t then some t else none
  | .repeated first last =>
    if since < first then some first else if since < last then some last else none

namespace Zone

/-- How many seconds the wall clock is ahead of UTC at a second. -/
def offsetAt (z : Zone) (second : Int) : Int :=
  match z with
  | utc => 0
  | fixed offset => offset
  | shifting base shifts =>
    shifts.foldl (fun offset (since, next) => if since ≤ second then next else offset) base

/-- All that the zone's wall clock is ever ahead of UTC. -/
def offsets : Zone → List Int
  | utc => [0]
  | fixed offset => [offset]
  | shifting base shifts => base :: shifts.map Prod.snd

/-- What the wall clock shows at an instant, to the second. -/
def wallTime (z : Zone) (t : Instant) : WallTime :=
  WallTime.ofSeconds (t.seconds + z.offsetAt t.seconds)

/-- The seconds at which the wall clock shows a time. -/
def secondsShowing (z : Zone) (w : WallTime) : List Int :=
  (z.offsets.map fun offset => w.seconds - offset).filter fun second =>
    second + z.offsetAt second == w.seconds

/-- The instants of the calendar at which the wall clock shows a time: the first and the last. A
time is skipped also if either of these lies outside the calendar. -/
def locate (z : Zone) (w : WallTime) : Location :=
  match (z.secondsShowing w).min?, (z.secondsShowing w).max? with
  | some first, some last =>
    match Instant.ofSeconds? first, Instant.ofSeconds? last with
    | some a, some b => if a = b then .once a else .repeated a b
    | _, _ => .skipped
  | _, _ => .skipped

/-! ## Laws -/

theorem mem_secondsShowing {z : Zone} {w : WallTime} {second : Int} :
    second ∈ z.secondsShowing w ↔
      w.seconds - second ∈ z.offsets ∧ second + z.offsetAt second = w.seconds := by
  simp only [secondsShowing, List.mem_filter, List.mem_map, beq_iff_eq]
  constructor
  · rintro ⟨⟨offset, h, rfl⟩, h'⟩
    refine ⟨?_, h'⟩
    rwa [Int.sub_sub_self]
  · rintro ⟨h, h'⟩
    exact ⟨⟨_, h, Int.sub_sub_self _ _⟩, h'⟩

/-- The offset at any second is one of the zone's offsets. -/
theorem offsetAt_mem_offsets (z : Zone) (second : Int) : z.offsetAt second ∈ z.offsets := by
  cases z with
  | utc => simp [offsetAt, offsets]
  | fixed => simp [offsetAt, offsets]
  | shifting base shifts =>
    simp only [offsetAt, offsets]
    induction shifts generalizing base with
    | nil => simp
    | cons shift rest ih =>
      obtain ⟨since, next⟩ := shift
      rw [List.foldl_cons, List.map_cons]
      split
      · exact List.mem_cons_of_mem _ (ih next)
      · rcases List.mem_cons.mp (ih base) with h | h
        · rw [h]
          exact List.mem_cons_self
        · exact List.mem_cons_of_mem _ (List.mem_cons_of_mem _ h)

end Zone

end Cron
