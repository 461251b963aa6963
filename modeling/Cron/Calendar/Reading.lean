import Cron.Calendar.Zone
import Cron.Text.Numeral

/-!
# Readings of a wall clock in text

A `Reading` is what a wall clock shows down to the nanosecond. Its text is
`YYYY-MM-DDTHH:MM:SS`, with a point and 3, 6 or 9 digits behind it if the nanoseconds are not zero:
the fewest of these that lose nothing. A leap second is written as second 60, its nanoseconds
counted from its own start. Years outside 0 to 9999 have a sign and at least four digits. With an
offset behind it this is the text that chrono gives for a `DateTime` (`to_rfc3339` and `Debug`).
-/

namespace Cron

/-- What a wall clock shows. -/
structure Reading where
  time : WallTime
  nanos : Nat
  nanos_lt : nanos < 2000000000

/-- What the zone's wall clock shows at an instant. -/
def Zone.reading (z : Zone) (t : Instant) : Reading := ⟨z.wallTime t, t.nanos, t.nanos_lt⟩

open Text

/-- A year in text. -/
def yearText (year : Int) : List Char :=
  if 0 ≤ year ∧ year ≤ 9999 then padded 4 year.toNat
  else (if year < 0 then '-' else '+') :: padded 4 year.natAbs

/-- A date in text. -/
def Date.text (d : Date) : List Char :=
  yearText d.year ++ ['-'] ++ padded 2 d.month ++ ['-'] ++ padded 2 d.day

/-- The digits behind the point for a part of a second, with the point in front. -/
def fractionText (nanos : Nat) : List Char :=
  if nanos = 0 then []
  else if nanos % 1000000 = 0 then '.' :: padded 3 (nanos / 1000000)
  else if nanos % 1000 = 0 then '.' :: padded 6 (nanos / 1000)
  else '.' :: padded 9 nanos

namespace Reading

/-- A reading in text. -/
def text (r : Reading) : String :=
  let leap := r.nanos / 1000000000
  String.ofList (r.time.date.text ++ ['T'] ++ padded 2 r.time.hour ++ [':']
    ++ padded 2 r.time.minute ++ [':'] ++ padded 2 (r.time.second + leap)
    ++ fractionText (r.nanos % 1000000000))

end Reading

/-- An offset from UTC as sign, hours and minutes, with seconds only if there are any. -/
def offsetText (offset : Int) : String :=
  let n := offset.natAbs
  let seconds := if n % 60 = 0 then [] else ':' :: padded 2 (n % 60)
  String.ofList ((if offset < 0 then '-' else '+') :: padded 2 (n / 3600) ++ [':']
    ++ padded 2 (n / 60 % 60) ++ seconds)

/-- An offset from UTC as sign, hours and minutes, to the nearest minute. -/
def offsetMinutesText (offset : Int) : String :=
  let minutes := (offset.natAbs + 30) / 60
  String.ofList ((if offset < 0 then '-' else '+') :: padded 2 (minutes / 60) ++ [':']
    ++ padded 2 (minutes % 60))

namespace Zone

/-- The offset in text, as it stands behind a reading: UTC has a letter. -/
def mark (z : Zone) (t : Instant) : String :=
  match z with
  | utc => "Z"
  | _ => offsetText (z.offsetAt t.seconds)

/-- An instant in text: what the wall clock shows, and how far it is ahead of UTC. -/
def stamp (z : Zone) (t : Instant) : String := (z.reading t).text ++ z.mark t

end Zone

end Cron
