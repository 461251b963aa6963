import Cron.Settings.Value

/-!
# Building the tables of a document

A document defines its tables piece by piece: a header opens a table, or one more table under a
name that has several, and a key with a value adds to the table that was opened last. Nothing can be
defined twice:

* a header can open a table that so far was only implied by longer headers, or is new;
* a key of several parts makes tables on its way, or adds to tables made in that manner or implied;
* a table that was written as a value is complete.

Each operation gives nothing where a document breaks these rules.
-/

namespace Cron.Toml

/-- A table with the way it came about. -/
structure Table where
  form : TableForm
  entries : Entries

/-- A document without any definition. -/
def Table.root : Table := ⟨.header, []⟩

/-- The table as a value. -/
def Table.value (t : Table) : Value := .table t.form t.entries

/-- Works on the table at the end of a path, and makes missing tables on the way in the given form.
Of several tables under one name, the last counts. -/
def Table.at? (made : TableForm) (work : Table → Option Table) : List String → Table → Option Table
  | [], t => work t
  | key :: path, t => do
    let child ← match t.entries.lookup key with
      | none => (Table.at? made work path ⟨made, []⟩).map Table.value
      | some (.table form entries) =>
        if form = .inline ∨ (made = .dotted ∧ form = .header) then none
        else (Table.at? made work path ⟨form, entries⟩).map Table.value
      | some (.tables members) => do
        let last ← members.getLast?
        let changed ← Table.at? made work path ⟨.header, last⟩
        some (.tables (members.dropLast ++ [changed.entries]))
      | some _ => none
    some { t with entries := t.entries.put key child }

/-- Adds a value under a new key. A table that keys of several parts made can only be added to by
such keys, and any other table only by keys of one part. -/
def Table.add? (path : List String) (key : String) (value : Value) (t : Table) : Option Table :=
  Table.at? .dotted
    (fun target =>
      if (target.form == .dotted) == path.isEmpty || (target.entries.lookup key).isSome then none
      else some { target with entries := target.entries ++ [(key, value)] })
    path t

/-- Opens the table of a header. -/
def Table.open? (path : List String) (key : String) (t : Table) : Option Table :=
  Table.at? .implied
    (fun parent =>
      match parent.entries.lookup key with
      | none => some { parent with entries := parent.entries ++ [(key, .table .header [])] }
      | some (.table .implied entries) =>
        some { parent with entries := parent.entries.put key (.table .header entries) }
      | some _ => none)
    path t

/-- Opens one more table under the name of a header. -/
def Table.openMember? (path : List String) (key : String) (t : Table) : Option Table :=
  Table.at? .implied
    (fun parent =>
      match parent.entries.lookup key with
      | none => some { parent with entries := parent.entries ++ [(key, .tables [[]])] }
      | some (.tables members) =>
        some { parent with entries := parent.entries.put key (.tables (members ++ [[]])) }
      | some _ => none)
    path t

end Cron.Toml
