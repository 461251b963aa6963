import Cron.Calendar.WallTime

/-!
# Instants

An `Instant` is a point of time: whole seconds since 1970 began in UTC, and nanoseconds into that
second. A leap second is the second before it with a thousand million nanoseconds or more, so it
comes after every other instant of that second and before the next one.

Model of chrono's `DateTime` without its zone, leap seconds as they are documented there. Times that
are to the second, as all occurrences are, have no nanoseconds.

Instants are ordered by seconds, then nanoseconds. `Instant.ticks` numbers them in this order
(`lt_iff_ticks_lt`).
-/

namespace Cron

/-- A point of time. -/
structure Instant where
  /-- Whole seconds since 1970 began in UTC, negative before. -/
  seconds : Int
  /-- Nanoseconds into the second. -/
  nanos : Nat
  nanos_lt : nanos < 2000000000
deriving DecidableEq

namespace Instant

/-- The start of a second. -/
def ofSeconds (n : Int) : Instant := ⟨n, 0, by decide⟩

/-- The first second of the calendar. -/
def firstSecond : Int := (daysBeforeYear firstYear - Date.epoch) * 86400

/-- The last second of the calendar. -/
def lastSecond : Int := WallTime.endSeconds - 1

/-- The start of a second, if it lies in the calendar. -/
def ofSeconds? (n : Int) : Option Instant :=
  if firstSecond ≤ n ∧ n ≤ lastSecond then some (ofSeconds n) else none

/-- The instant that many seconds later, if it lies in the calendar. -/
def addSeconds? (t : Instant) (n : Nat) : Option Instant :=
  if t.seconds + n ≤ lastSecond then some { t with seconds := t.seconds + n } else none

/-! ## Order -/

/-- The number of the instant in the order of all instants. -/
def ticks (t : Instant) : Int := t.seconds * 2000000000 + t.nanos

instance : LT Instant :=
  ⟨fun a b => a.seconds < b.seconds ∨ (a.seconds = b.seconds ∧ a.nanos < b.nanos)⟩

instance : LE Instant := ⟨fun a b => ¬ b < a⟩

instance (a b : Instant) : Decidable (a < b) :=
  inferInstanceAs
    (Decidable (a.seconds < b.seconds ∨ (a.seconds = b.seconds ∧ a.nanos < b.nanos)))

instance (a b : Instant) : Decidable (a ≤ b) := inferInstanceAs (Decidable (¬ b < a))

theorem lt_def {a b : Instant} :
    a < b ↔ a.seconds < b.seconds ∨ (a.seconds = b.seconds ∧ a.nanos < b.nanos) := Iff.rfl

theorem le_def {a b : Instant} : a ≤ b ↔ ¬ b < a := Iff.rfl

theorem lt_iff_ticks_lt {a b : Instant} : a < b ↔ a.ticks < b.ticks := by
  have := a.nanos_lt
  have := b.nanos_lt
  rw [lt_def, ticks, ticks]
  omega

theorem le_iff_ticks_le {a b : Instant} : a ≤ b ↔ a.ticks ≤ b.ticks := by
  rw [le_def, lt_iff_ticks_lt, Int.not_lt]

theorem ext_ticks {a b : Instant} (h : a.ticks = b.ticks) : a = b := by
  cases a
  cases b
  simp only [ticks] at h
  congr 1 <;> omega

theorem lt_irrefl (a : Instant) : ¬ a < a := by
  rw [lt_iff_ticks_lt]
  omega

theorem lt_trans {a b c : Instant} (h : a < b) (h' : b < c) : a < c := by
  rw [lt_iff_ticks_lt] at *
  omega

theorem le_antisymm {a b : Instant} (h : a ≤ b) (h' : b ≤ a) : a = b := by
  rw [le_iff_ticks_le] at h h'
  exact ext_ticks (Int.le_antisymm h h')

end Instant

end Cron
