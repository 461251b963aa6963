import Cron.Text.Numeral

/-!
# Reading text from the front

A `Reader` takes a value from the front of a text and leaves the rest, or fails. Readers are
composed as a state monad over the text that is left. Repetition is `iterate`, whose steps have to
take something off the text, so it always ends.
-/

namespace Cron

/-- Takes a value from the front of a text, or fails. -/
abbrev Reader := StateT (List Char) Option

namespace Reader

variable {α β : Type}

/-- The value of a text, if the reader takes all of it. -/
def all? (r : Reader α) (text : List Char) : Option α :=
  match r.run text with
  | some (a, []) => some a
  | _ => none

/-- Reads one character. -/
def one : Reader Char
  | [] => none
  | c :: rest => some (c, rest)

/-- Reads a character that passes a test. -/
def oneThat (p : Char → Bool) : Reader Char := do
  let c ← one
  if p c then pure c else failure

/-- Reads one of the given characters. -/
def oneOf (cs : List Char) : Reader Char := oneThat fun c => cs.contains c

/-- Reads a given text. -/
def exactly (text : List Char) : Reader Unit := fun s =>
  if text.isPrefixOf s then some ((), s.drop text.length) else none

/-- Reads the longest run of characters that pass a test. -/
def run (p : Char → Bool) : Reader (List Char) := fun s => some (s.takeWhile p, s.dropWhile p)

/-- Reads the longest run of characters that pass a test, which may not be empty. -/
def run1 (p : Char → Bool) : Reader (List Char) := do
  let cs ← run p
  if cs.isEmpty then failure else pure cs

/-- The character that comes next, which stays where it is. -/
def peek : Reader (Option Char) := fun s => some (s.head?, s)

/-- Reads a numeral of a given number of digits. -/
def numeral (width : Nat) : Reader Nat := fun s =>
  if s.length < width then none
  else (Text.numeral? (s.take width)).map fun n => (n, s.drop width)

/-- Takes steps until one gives a result. A step that takes nothing off the text must give one. -/
def iterate (step : α → Reader (α ⊕ β)) (a : α) : Reader β := fun s =>
  match step a s with
  | none => none
  | some (.inr b, rest) => some (b, rest)
  | some (.inl next, rest) => if rest.length < s.length then iterate step next rest else none
termination_by s => s.length

end Reader

end Cron
