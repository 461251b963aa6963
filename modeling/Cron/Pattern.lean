import Cron.Field.Expression
import Cron.Text.Blank

/-!
# Patterns

A pattern is six fields between blanks. The first four hold digits and the signs `-`, `/`, `*`, `?`
and `,`; the last two may hold ASCII letters besides. `Pattern.captures` matches a text against that
and `Pattern.fields?` takes a pattern apart. Model of `tokenize` and of the errors of a pattern.

Of regular expressions it is assumed that a repetition takes as much as it can and gives back one
character after the other, that `\s` is a blank character (`Text.isBlank`), and that a match between
`^` and `$` is one of the whole text.

A pattern is refused as a whole if it has not this shape, else for its first faulty field.
-/

namespace Cron

/-- Why a pattern is refused. -/
inductive PatternError where
  /-- The pattern, as it was given, does not consist of six fields. -/
  | badShape (pattern : String)
  /-- A field, whose whole text is given, has a faulty item. -/
  | badField (field : Field) (text : String) (fault : ItemFault)
deriving DecidableEq, Repr

/-- The error in words. -/
def PatternError.message : PatternError → String
  | badShape pattern =>
    "Invalid pattern " ++ Text.quoted pattern
      ++ ": expected `second minute hour day-of-month month day-of-week`"
  | badField field text fault =>
    "Invalid " ++ field.name ++ " field " ++ Text.quoted text ++ ": " ++ fault.message

namespace Field

/-- Characters that may stand in any field. -/
def isSign (c : Char) : Bool :=
  c == '-' || c == '/' || c == '*' || c == '?' || c == ',' || c.isDigit

/-- Characters that may stand in the text of a field: letters only where the field has names. -/
def allows : Field → Char → Bool
  | month, c | dayOfWeek, c => isSign c || c.isAlpha
  | _, c => isSign c

end Field

namespace Pattern

/-- The ways to match a whole text against fields with blanks between them, as the texts of the
fields. Where a field or the blanks take as much as they can, the way is listed first. -/
def captures : List Field → List Char → List (List (List Char))
  | [], _ => []
  | [field], s =>
    (Text.runs field.allows s).filterMap fun (text, behind) =>
      if behind.isEmpty then some [text] else none
  | field :: others, s =>
    (Text.runs field.allows s).flatMap fun (text, behind) =>
      (Text.runs Text.isBlank behind).flatMap fun (_, rest) =>
        (captures others rest).map (text :: ·)

/-- The texts of the six fields, from the first way to match what is between the blanks at the ends,
or `none` if there is none. -/
def fields? (pattern : String) : Option (PerField String) := do
  let texts ← (captures Field.all (Text.trim pattern.toList)).head?
  PerField.ofList? (texts.map String.ofList)

/-- The texts of the six fields. -/
def fields (pattern : String) : Except PatternError (PerField String) :=
  match fields? pattern with
  | some texts => .ok texts
  | none => .error (.badShape pattern)

end Pattern

end Cron
