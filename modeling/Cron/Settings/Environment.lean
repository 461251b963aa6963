import Cron.Settings.Value
import Cron.Text.Blank
import Cron.Text.Reader
import Cron.Toml.Quotation

/-!
# Settings from the environment

A variable whose name starts with `CHIME_` gives a value of a settings tree. The rest of its name is
the path: keys with two underscores or a point between them. Case does not matter in names.

The value of a variable is read in a small notation: `true` and `false`, tables between braces,
lists between brackets, quotations, single characters between apostrophes, numbers, and anything
else as a text. A value that cannot be read in this way is a text as a whole.

Quotations have the escapes of a basic quotation in TOML; between apostrophes there are none.

This is what figment documents of its provider `Env` for names with a prefix (`prefixed`) that are
split (`split`), and of the notation in which it reads a variable's value. The variables are taken
in the order in which they are given, and each is laid over those before it. Out of scope: names and
values that are not Unicode.
-/

namespace Cron.Environment

open Reader

/-! ## Names -/

/-- The start of the names that count, in small letters. -/
def opening : List Char := ['c', 'h', 'i', 'm', 'e', '_']

/-- The text with every two underscores in a row made a point, from the left. -/
def pointed : List Char → List Char
  | '_' :: '_' :: rest => '.' :: pointed rest
  | c :: rest => c :: pointed rest
  | [] => []

/-- The path of keys that a variable's name stands for, if it counts. -/
def path? (name : String) : Option (List String) :=
  let name := (Text.trim name.toList).map Char.toLower
  if opening.isPrefixOf name then
    let keys := (Text.trim (pointed (name.drop opening.length))).splitOn '.'
    if keys.any List.isEmpty then none else some (keys.map String.ofList)
  else none

/-! ## Values -/

/-- The blanks that may stand around values. -/
def isGap (c : Char) : Bool :=
  c == ' ' || c == '\t' || c == '\n' || c == '\x0c' || c == '\r'

/-- Whether a character ends a bare value. -/
def isSeparator (c : Char) : Bool :=
  c == ',' || c == '{' || c == '}' || c == '[' || c == ']'

/-- Whether a text is a number with a decimal point, with digits on at least one of its sides and
an exponent behind it or not. -/
def isReal (s : List Char) : Bool :=
  let body := match s with
    | '+' :: rest | '-' :: rest => rest
    | _ => s
  let mantissa := body.takeWhile fun c => c != 'e' && c != 'E'
  let exponentOk := match body.drop mantissa.length with
    | [] => true
    | _ :: '+' :: ds | _ :: '-' :: ds | _ :: ds => (Text.numeral? ds).isSome
  match mantissa.splitOn '.' with
  | [whole, fraction] =>
    exponentOk && whole.all Char.isDigit && fraction.all Char.isDigit
      && !(whole.isEmpty && fraction.isEmpty)
  | _ => false

/-- A whole number: up to 64 bits without a minus sign, and 63 with one. -/
def integer? (s : List Char) : Option Int :=
  match s with
  | '-' :: ds => (Text.numeralUpTo? 9223372036854775808 ds).map fun n => -n
  | '+' :: ds => (Text.numeralUpTo? 18446744073709551615 ds).map fun n => n
  | _ => (Text.numeralUpTo? 18446744073709551615 s).map fun n => n

/-- A value without marks of its own. -/
def bare (s : List Char) : Value :=
  if isReal s then .real (String.ofList s)
  else
    match integer? s with
    | some n => .integer n
    | none => .text (String.ofList s)

/-- Reads a single character behind its apostrophe. -/
def character : Reader Char := do
  let c ← one
  let _ ← oneOf ['\'']
  return c

/-- Reads items up to a closing character, with commas between them. -/
def items {α : Type} (item : Reader α) (close : Char) : Reader (List α) :=
  iterate (fun read => do
    if (← peek) = some close then
      let _ ← one
      return .inr read
    let a ← item
    match ← one with
    | c =>
      if c = ',' then return .inl (read ++ [a])
      else if c = close then return .inr (read ++ [a])
      else failure) []

/-- Reads a quotation behind its first quote. -/
def quotationRest : Reader (List Char) := Toml.basicRest

/-- Reads a key: a quotation, or letters, digits, underscores and hyphens. -/
def key : Reader (List Char) := do
  match ← peek with
  | some '"' =>
    let _ ← one
    quotationRest
  | _ => run1 fun c => c.isAlphanum || c == '_' || c == '-'

/-- Reads a key with its value. -/
def entry (value : Reader Value) : Reader (String × Value) := do
  let _ ← Reader.run isGap
  let key ← key
  let _ ← Reader.run isGap
  let _ ← oneOf ['=']
  return (String.ofList key, ← value)

/-- Reads a value that has marks of its own or ends at a separator. -/
def unspaced (value : Reader Value) : Reader Value := do
  match ← peek with
  | some '{' =>
    let _ ← one
    let es ← items (entry value) '}'
    return .table .inline (es.foldl (fun t (k, v) => Entries.put k v t) [])
  | some '[' =>
    let _ ← one
    return .list (← items value ']')
  | some '"' =>
    let _ ← one
    return .text (String.ofList (← quotationRest))
  | some '\'' =>
    let _ ← one
    return .character (← character)
  | _ =>
    match ← optional (exactly ['t', 'r', 'u', 'e']) with
    | some () => return .boolean true
    | none =>
      match ← optional (exactly ['f', 'a', 'l', 's', 'e']) with
      | some () => return .boolean false
      | none => return bare (Text.trim (← Reader.run fun c => !isSeparator c))

/-- Reads a value with at most that many levels of values within it, and the blanks around. -/
def value : Nat → Reader Value
  | 0 => failure
  | levels + 1 => do
    let _ ← Reader.run isGap
    let v ← unspaced (value levels)
    let _ ← Reader.run isGap
    return v

/-- The value of a variable's text. -/
def ofText (text : String) : Value :=
  match (value (text.toList.length + 1)).all? text.toList with
  | some v => v
  | none => .text text

/-! ## The tree -/

/-- A tree with one value, at the end of a path. -/
def nested (v : Value) : List String → Value
  | [] => v
  | key :: path => .table .inline [(key, nested v path)]

/-- The tree that a list of variables gives; later ones are laid over earlier ones. -/
def tree (environment : List (String × String)) : Entries :=
  environment.foldl
    (fun es (name, text) =>
      match path? name with
      | some (key :: path) => Entries.merge es [(key, nested (ofText text) path)]
      | _ => es)
    []

end Cron.Environment
