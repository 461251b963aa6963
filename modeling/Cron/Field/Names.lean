import Cron.Field.Basic

/-!
# Names of months and days of the week

Each month and each day of the week has a short and a full English name. `Field.valueOfName?` finds
the number of a name in any mixture of ASCII cases; only the month and day-of-week fields have
names. The tables are `MONTHS` and `WEEKDAYS`.
-/

namespace Cron.Field

/-- Short and full names of the months, January first. -/
def monthNames : List (String × String) :=
  [("jan", "january"), ("feb", "february"), ("mar", "march"), ("apr", "april"), ("may", "may"),
    ("jun", "june"), ("jul", "july"), ("aug", "august"), ("sep", "september"),
    ("oct", "october"), ("nov", "november"), ("dec", "december")]

/-- Short and full names of the days of the week, Sunday first. -/
def weekdayNames : List (String × String) :=
  [("sun", "sunday"), ("mon", "monday"), ("tue", "tuesday"), ("wed", "wednesday"),
    ("thu", "thursday"), ("fri", "friday"), ("sat", "saturday")]

/-- The position of the entry that has the given name. -/
def indexOfName? (names : List (String × String)) (name : String) : Option Nat :=
  names.findIdx? fun (short, full) => short == name || full == name

/-- The text with its ASCII capitals made small. -/
def lowered (text : List Char) : String := String.ofList (text.map Char.toLower)

/-- The value that a name stands for in a field. -/
def valueOfName? (field : Field) (text : List Char) : Option Nat :=
  match field with
  | month => (indexOfName? monthNames (lowered text)).map (· + 1)
  | dayOfWeek => indexOfName? weekdayNames (lowered text)
  | _ => none

end Cron.Field
