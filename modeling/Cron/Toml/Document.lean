import Cron.Toml.Scalar
import Cron.Toml.Table

/-!
# TOML documents

A document is a sequence of lines: a header of a table, a key with a value, a comment, or nothing.
`document?` gives the tree that a document stands for, or nothing if it is not a document.

The modules below `Toml` follow the definition of TOML 1.0, as the toml library reads it for
figment. Out of scope is what it says about a text that is not a document.

Lists and tables that are written as values can be nested within each other up to `nesting` levels.
-/

namespace Cron.Toml

open Reader

/-! ## Blanks, comments and keys -/

/-- Reads the blanks up to the next character on the line. -/
def blanks : Reader Unit := do
  let _ ← run fun c => c == ' ' || c == '\t'

/-- Reads a line break. -/
def lineBreak : Reader Unit := do
  match ← one with
  | '\n' => pure ()
  | '\r' =>
    let _ ← oneOf ['\n']
  | _ => failure

/-- Reads a comment up to the end of the line. -/
def comment : Reader Unit := do
  let _ ← oneOf ['#']
  let _ ← run isPlain

/-- Reads the rest of a line behind a definition. -/
def lineEnd : Reader Unit := do
  blanks
  if (← peek) = some '#' then comment
  if (← peek).isSome then lineBreak

/-- Reads blanks, line breaks and comments, as they may stand between the items of a list. -/
def gap : Reader Unit :=
  iterate (fun () => do
    blanks
    match ← peek with
    | some '\n' | some '\r' =>
      lineBreak
      return .inl ()
    | some '#' =>
      comment
      lineBreak
      return .inl ()
    | _ => return .inr ()) ()

/-- Reads one part of a key. -/
def keyPart : Reader String := do
  match ← peek with
  | some '"' | some '\'' => return String.ofList (← lineQuotation)
  | _ => return String.ofList (← run1 fun c => c.isAlphanum || c == '_' || c == '-')

/-- How many levels of values within values there can be, and how many parts of a key. -/
def nesting : Nat := 79

/-- Reads a key: the parts in front of its last one, and that. -/
def key : Reader (List String × String) := do
  let parts : List String ← iterate (fun parts => do
    blanks
    let part ← keyPart
    blanks
    if (← peek) = some '.' then
      let _ ← one
      return .inl (parts ++ [part])
    else return .inr (parts ++ [part])) []
  match parts.getLast? with
  | some last => if parts.length ≤ nesting then return (parts.dropLast, last) else failure
  | none => failure

/-! ## Values -/

/-- Reads the items of a list behind its bracket. -/
def listItems (item : Reader Value) : Reader (List Value) :=
  iterate (fun items => do
    gap
    if (← peek) = some ']' then
      let _ ← one
      return .inr items
    let v ← item
    gap
    match ← one with
    | ',' => return .inl (items ++ [v])
    | ']' => return .inr (items ++ [v])
    | _ => failure) []

/-- Reads a key with its value, as they stand in a table. -/
def definition (value : Reader Value) : Reader ((List String × String) × Value) := do
  let k ← key
  let _ ← oneOf ['=']
  blanks
  return (k, ← value)

/-- Reads the entries of a table behind its brace. -/
def tableEntries (value : Reader Value) : Reader Table := do
  blanks
  if (← peek) = some '}' then
    let _ ← one
    return Table.root
  iterate (fun (t : Table) => do
    let ((path, key), v) ← definition value
    blanks
    match t.add? path key v, ← one with
    | some t, ',' => return .inl t
    | some t, '}' => return .inr t
    | _, _ => failure) Table.root

/-- Reads a value with at most that many levels within it. -/
def value : Nat → Reader Value
  | 0 => do
    match ← peek with
    | some '"' | some '\'' => return .text (String.ofList (← quotation))
    | _ => scalar
  | levels + 1 => do
    match ← peek with
    | some '[' =>
      let _ ← one
      return .list (← listItems (value levels))
    | some '{' =>
      let _ ← one
      return .table .inline (← tableEntries (value levels)).entries
    | some '"' | some '\'' => return .text (String.ofList (← quotation))
    | _ => scalar

/-! ## Documents -/

/-- A document as far as it has been read: the tree, and the path of the table that is open. -/
structure Draft where
  tree : Table
  opened : List String

/-- Reads a header behind its first bracket, and opens its table. -/
def header (d : Draft) : Reader Draft := do
  if (← peek) = some '[' then
    let _ ← one
    let (path, key) ← key
    exactly [']', ']']
    match d.tree.openMember? path key with
    | some tree => return ⟨tree, path ++ [key]⟩
    | none => failure
  else
    let (path, key) ← key
    exactly [']']
    match d.tree.open? path key with
    | some tree => return ⟨tree, path ++ [key]⟩
    | none => failure

/-- Reads one line. -/
def line (d : Draft) : Reader Draft := do
  blanks
  match ← peek with
  | none | some '\n' | some '\r' | some '#' =>
    lineEnd
    return d
  | some '[' =>
    let _ ← one
    let d ← header d
    lineEnd
    return d
  | some _ =>
    let ((path, key), v) ← definition (value nesting)
    lineEnd
    match Table.at? .implied (Table.add? path key v) d.opened d.tree with
    | some tree => return ⟨tree, d.opened⟩
    | none => failure

/-- Reads all lines. -/
def lines : Reader Draft :=
  iterate (fun d => do
    if (← peek).isNone then return .inr d
    return .inl (← line d)) ⟨Table.root, []⟩

/-- The tree of a document. A byte-order mark at its front does not count. -/
def document? (text : List Char) : Option Entries :=
  let text := match text with
    | '\ufeff' :: rest => rest
    | _ => text
  (lines.all? text).map fun d => d.tree.entries

end Cron.Toml
