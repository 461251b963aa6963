/-!
# Values in settings

Settings are given as a tree: tables with named parts, lists, and plain values. `Value.merge` lays
one tree over another: of tables, part by part, and otherwise the upper one counts. These are
figment's `Value` and the `merge` of its providers.
-/

namespace Cron

/-- How a table of a document came about, which decides how it can still be extended. -/
inductive TableForm where
  /-- It was written as a value, and is complete. -/
  | inline
  /-- It has a header. -/
  | header
  /-- It was made for the header of a table within it. -/
  | implied
  /-- It was made for a key of several parts. -/
  | dotted
deriving DecidableEq, Repr

/-- A value in a tree of settings. -/
inductive Value where
  | text (s : String)
  | integer (n : Int)
  /-- A number with a fraction or an exponent, as it was written. -/
  | real (digits : String)
  | boolean (b : Bool)
  | character (c : Char)
  /-- A date, a time of day or both, as it was written. It counts as a table whose parts have no
  names in settings. -/
  | moment (s : String)
  | list (items : List Value)
  | table (form : TableForm) (entries : List (String × Value))
  /-- Tables under one name, each with a header. -/
  | tables (members : List (List (String × Value)))

/-- The named parts of a table. -/
abbrev Entries := List (String × Value)

namespace Entries

/-- The entries with a value put under a key, in the place of the one that was there. -/
def put (key : String) (value : Value) : Entries → Entries
  | [] => [(key, value)]
  | (k, v) :: rest => if k = key then (key, value) :: rest else (k, v) :: put key value rest

theorem lookup_put_self (key : String) (value : Value) (es : Entries) :
    (put key value es).lookup key = some value := by
  induction es with
  | nil => simp [put]
  | cons e rest ih =>
    obtain ⟨k, v⟩ := e
    unfold put
    split
    · simp
    next h => simp [List.lookup_cons, beq_false_of_ne (Ne.symm h), ih]

theorem lookup_put_of_ne {key other : String} (h : other ≠ key) (value : Value) (es : Entries) :
    (put key value es).lookup other = es.lookup other := by
  induction es with
  | nil => simp [put, List.lookup_cons, beq_false_of_ne h]
  | cons e rest ih =>
    obtain ⟨k, v⟩ := e
    unfold put
    split
    next hk =>
      subst hk
      simp [List.lookup_cons, beq_false_of_ne h]
    next => simp [List.lookup_cons, ih]

end Entries

mutual

/-- The tree with another one laid over it. -/
def Value.merge (lower : Value) : Value → Value
  | .table form upper =>
    match lower with
    | .table lowerForm es => .table lowerForm (Entries.merge es upper)
    | _ => .table form upper
  | upper => upper

/-- The entries with others laid over them, part by part. -/
def Entries.merge (lower : Entries) : List (String × Value) → Entries
  | [] => lower
  | (key, upper) :: rest =>
    let merged := match lower.lookup key with
      | some value => Value.merge value upper
      | none => upper
    Entries.merge (lower.put key merged) rest

end

end Cron
