import Cron.Calendar.Instant
import Cron.Text.Reader

/-!
# Reading timestamps

A timestamp is a date, a time of day and an offset from UTC, which together name an instant. There
are two forms.

* The Internet form: a year of four digits; `T`, `t` or a blank between date and time; any number
  of digits behind the point, of which nine count; and an offset, which is `Z`, `z` or a sign with
  hours and minutes.
* The long form: a year of four digits or with a sign, `T`, and `Z`.

In both, second 60 is the leap second behind second 59.

The Internet form is what chrono takes for RFC 3339 (`parse_from_rfc3339`), which `--from` of the
command line is read by.
-/

namespace Cron

namespace Timestamp

open Reader

/-- Reads a year of four digits. -/
def fourDigitYear : Reader Int := do return (← numeral 4)

/-- Reads a year of four digits, or a sign and a year. -/
def longYear : Reader Int := do
  match ← peek with
  | some '+' =>
    let _ ← one
    match Text.numeral? (← run Char.isDigit) with
    | some n => return n
    | none => failure
  | some '-' =>
    let _ ← one
    match Text.numeral? (← run Char.isDigit) with
    | some n => return -n
    | none => failure
  | _ => fourDigitYear

/-- Reads a date. -/
def date (year : Reader Int) : Reader Date := do
  let y ← year
  let _ ← oneOf ['-']
  let m ← numeral 2
  let _ ← oneOf ['-']
  let d ← numeral 2
  match Date.of? y m d with
  | some date => return date
  | none => failure

/-- The nanoseconds of the digits behind the point; digits after the ninth do not count. -/
def fraction (digits : List Char) : Nat :=
  let nine := digits.take 9
  Nat.ofDigitChars 10 nine 0 * Nat.pow 10 (9 - nine.length)

/-- Reads a time of day: hour, minute, second and nanoseconds. -/
def timeOfDay : Reader (Nat × Nat × Nat × Nat) := do
  let hour ← numeral 2
  let _ ← oneOf [':']
  let minute ← numeral 2
  let _ ← oneOf [':']
  let second ← numeral 2
  let nanos ← do
    match ← peek with
    | some '.' =>
      let _ ← one
      match ← run Char.isDigit with
      | [] => failure
      | ds => pure (fraction ds)
    | _ => pure 0
  if second = 60 then return (hour, minute, 59, nanos + 1000000000)
  return (hour, minute, second, nanos)

/-- Reads an offset from UTC in seconds: a letter, or a sign with hours and minutes. -/
def offset : Reader Int := do
  match ← oneOf ['Z', 'z', '+', '-', '\u2212'] with
  | 'Z' | 'z' => return 0
  | sign =>
    let hours ← numeral 2
    let _ ← oneOf [':']
    let minutes ← numeral 2
    if 23 < hours ∨ 59 < minutes then failure
    let seconds : Int := hours * 3600 + minutes * 60
    return if sign = '+' then seconds else -seconds

/-- Reads a timestamp. -/
def timestamp (year : Reader Int) (separators : List Char) (offset : Reader Int) :
    Reader Instant := do
  let date ← date year
  let _ ← oneOf separators
  let (hour, minute, second, nanos) ← timeOfDay
  let offset ← offset
  match WallTime.of? date hour minute second with
  | none => failure
  | some time =>
    if h : nanos < 2000000000 then return ⟨time.seconds - offset, nanos, h⟩ else failure

/-- The instant of a timestamp in the Internet form. -/
def ofInternet? (text : String) : Option Instant :=
  (timestamp fourDigitYear ['T', 't', ' '] offset).all? text.toList

/-- The instant of a timestamp in the long form. -/
def ofLong? (text : String) : Option Instant :=
  (timestamp longYear ['T'] (do let _ ← oneOf ['Z']; pure 0)).all? text.toList

end Timestamp

end Cron
