/-!
# The six fields of a pattern

A pattern has a field for each of second, minute, hour, day of the month, month and day of the
week, in this order. A field has the range of values that the calendar can give it; days of the
week count from Sunday as 0.

Model of `FieldKind`, with the names and ranges of its kinds.

`PerField α` holds one value per field and `PerField.traverse` visits them in pattern order, so the
first field that fails decides.
-/

namespace Cron

/-- A unit of calendar time that a pattern restricts. -/
inductive Field where
  | second
  | minute
  | hour
  | dayOfMonth
  | month
  | dayOfWeek
deriving DecidableEq, Repr

namespace Field

/-- The fields in pattern order. -/
def all : List Field := [second, minute, hour, dayOfMonth, month, dayOfWeek]

/-- The name that messages use. -/
def name : Field → String
  | second => "second"
  | minute => "minute"
  | hour => "hour"
  | dayOfMonth => "day-of-month"
  | month => "month"
  | dayOfWeek => "day-of-week"

/-- The field with the given name. -/
def ofName? (text : String) : Option Field := all.find? fun field => field.name == text

/-- The least value in the calendar. -/
def min : Field → Nat
  | dayOfMonth | month => 1
  | _ => 0

/-- The greatest value in the calendar. -/
def max : Field → Nat
  | second | minute => 59
  | hour => 23
  | dayOfMonth => 31
  | month => 12
  | dayOfWeek => 6

/-- Only the two day fields may be left open with a question mark. -/
def allowsQuestionMark : Field → Bool
  | dayOfMonth | dayOfWeek => true
  | _ => false

theorem mem_all (field : Field) : field ∈ all := by cases field <;> decide

theorem ofName?_name (field : Field) : ofName? field.name = some field := by
  cases field <;> decide

end Field

/-- One value for each field. -/
structure PerField (α : Type) where
  second : α
  minute : α
  hour : α
  dayOfMonth : α
  month : α
  dayOfWeek : α
deriving DecidableEq

namespace PerField

variable {α β ε : Type}

/-- The value of one field. -/
def get (p : PerField α) : Field → α
  | .second => p.second
  | .minute => p.minute
  | .hour => p.hour
  | .dayOfMonth => p.dayOfMonth
  | .month => p.month
  | .dayOfWeek => p.dayOfWeek

/-- The values that a function gives to the fields. -/
def ofFun (f : Field → α) : PerField α where
  second := f .second
  minute := f .minute
  hour := f .hour
  dayOfMonth := f .dayOfMonth
  month := f .month
  dayOfWeek := f .dayOfWeek

/-- The six values of a list of length six, taken in pattern order. -/
def ofList? : List α → Option (PerField α)
  | [a, b, c, d, e, f] => some ⟨a, b, c, d, e, f⟩
  | _ => none

/-- The values in pattern order. -/
def toList (p : PerField α) : List α :=
  [p.second, p.minute, p.hour, p.dayOfMonth, p.month, p.dayOfWeek]

/-- Works on each field in pattern order and stops at the first failure. -/
def traverse (f : Field → α → Except ε β) (p : PerField α) : Except ε (PerField β) := do
  let second ← f .second p.second
  let minute ← f .minute p.minute
  let hour ← f .hour p.hour
  let dayOfMonth ← f .dayOfMonth p.dayOfMonth
  let month ← f .month p.month
  let dayOfWeek ← f .dayOfWeek p.dayOfWeek
  return ⟨second, minute, hour, dayOfMonth, month, dayOfWeek⟩

@[simp] theorem get_ofFun (f : Field → α) (field : Field) : (ofFun f).get field = f field := by
  cases field <;> rfl

theorem ext_get {p q : PerField α} (h : ∀ field, p.get field = q.get field) : p = q := by
  cases p
  cases q
  simp only [mk.injEq]
  exact ⟨h .second, h .minute, h .hour, h .dayOfMonth, h .month, h .dayOfWeek⟩

@[simp] theorem ofList?_toList (p : PerField α) : ofList? p.toList = some p := rfl

end PerField

end Cron
