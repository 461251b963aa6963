import Cron.Pattern

/-!
# Schedules

A schedule is a compiled pattern: one set of allowed values for each field, and the text that it was
compiled from, without the blanks around it. `Schedule.compile` refuses a pattern for its shape
first, then for the first faulty field. Model of `Schedule::parse`, `is_satisfiable` and the text
that a schedule is shown by.
-/

namespace Cron

/-- A compiled pattern. -/
structure Schedule where
  /-- The pattern, trimmed. -/
  text : String
  /-- The values that each field allows. -/
  allowed : PerField ValueSet
deriving DecidableEq

namespace Schedule

/-- Compiles a pattern. -/
def compile (pattern : String) : Except PatternError Schedule := do
  let texts ← Pattern.fields pattern
  let allowed ← texts.traverse fun field text =>
    (field.read text).mapError (PatternError.badField field text)
  return { text := String.ofList (Text.trim pattern.toList), allowed }

/-- Whether each field allows a value that the calendar can give it. -/
def isSatisfiable (s : Schedule) : Bool :=
  Field.all.all fun field => (s.allowed.get field).meets (calendarValues.get field)

theorem isSatisfiable_iff {s : Schedule} :
    s.isSatisfiable = true ↔
      ∀ field, ∃ v ∈ s.allowed.get field, field.min ≤ v ∧ v ≤ field.max := by
  simp only [isSatisfiable, List.all_eq_true, ValueSet.meets_iff, mem_calendarValues]
  exact ⟨fun h field => h field (Field.mem_all field), fun h field _ => h field⟩

/-- The plural of each field, which the listing of a schedule uses. -/
def listingName : Field → String
  | .second => "seconds"
  | .minute => "minutes"
  | .hour => "hours"
  | .dayOfMonth => "days"
  | .month => "months"
  | .dayOfWeek => "weekdays"

/-- The schedule with its text and all its sets on one line. -/
def listing (s : Schedule) : String :=
  "Schedule \x7b pattern: " ++ Text.quoted s.text
    ++ String.join (Field.all.map fun field =>
        ", " ++ listingName field ++ ": " ++ (s.allowed.get field).text)
    ++ " \x7d"

end Schedule

end Cron
