import Cron.Calendar.Reading
import Cron.Schedule.Occurrence

/-!
# Entries

An entry is a registered job with its schedule: when it fires next, or never again, and when it
fired last. Firing at an instant looks for the next occurrence after that instant, whatever the
clock says (`fire`), so occurrences that were missed are made up one by one. Model of `Entry` and of
its snapshot.

A job is only known by the name of its entry. That name is a UUID in the program, made from the
clock and at random. Here it is any `EntryId` that is handed over; where it matters that two entries
have different names, that is said.
-/

namespace Cron

/-- The name of an entry. -/
structure EntryId where
  text : String
deriving DecidableEq

/-- A registered job. -/
structure Entry where
  id : EntryId
  schedule : Schedule
  /-- When it fires next, or `none` for never. -/
  next : Option Instant
  /-- When it fired last. -/
  prev : Option Instant
deriving DecidableEq

namespace Entry

/-- An entry that is not scheduled yet. -/
def new (id : EntryId) (schedule : Schedule) : Entry :=
  { id, schedule, next := none, prev := none }

/-- The entry with its next occurrence looked for after an instant. -/
def scheduledAfter (z : Zone) (horizon : Int) (since : Instant) (e : Entry) : Entry :=
  { e with next := e.schedule.firstAfter? z horizon since }

/-- The entry after it fired as due at an instant. -/
def fire (z : Zone) (horizon : Int) (due : Instant) (e : Entry) : Entry :=
  { e with prev := some due }.scheduledAfter z horizon due

/-- An instant that may be missing. -/
def stampText (z : Zone) : Option Instant → String
  | some t => "Some(" ++ z.stamp t ++ ")"
  | none => "None"

/-- The entry on one line. -/
def listing (z : Zone) (e : Entry) : String :=
  "Entry \x7b id: EntryId(" ++ Text.quoted e.id.text ++ "), pattern: "
    ++ Text.quoted e.schedule.text ++ ", next: " ++ stampText z e.next ++ ", prev: "
    ++ stampText z e.prev ++ " \x7d"

/-! ## Laws -/

@[simp] theorem id_scheduledAfter (z : Zone) (horizon : Int) (since : Instant) (e : Entry) :
    (e.scheduledAfter z horizon since).id = e.id := rfl

@[simp] theorem id_fire (z : Zone) (horizon : Int) (due : Instant) (e : Entry) :
    (e.fire z horizon due).id = e.id := rfl

/-- An entry that fired is due later than that. -/
theorem lt_next_fire {z : Zone} {horizon : Int} {due t : Instant} {e : Entry}
    (h : (e.fire z horizon due).next = some t) : due < t :=
  Schedule.lt_of_firstAfter h

end Entry

end Cron
