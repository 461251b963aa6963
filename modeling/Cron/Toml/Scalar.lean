import Cron.Settings.Value
import Cron.Text.Reader
import Cron.Calendar.Date
import Cron.Toml.Quotation

/-!
# Plain values in TOML

Booleans, whole numbers of 64 bits (decimal, hexadecimal, octal or binary), numbers with a fraction
or an exponent, and moments: a date, a time of day, or both with an offset or without.

A number with a fraction or an exponent is refused if it would be rounded to positive infinity.
-/

namespace Cron.Toml

open Reader

/-! ## Numbers -/

/-- The digits of a run in which single underscores may stand between digits. -/
def ungrouped? (isDigit : Char → Bool) (s : List Char) : Option (List Char) :=
  let groups := s.splitOn '_'
  if groups.all fun group => !group.isEmpty && group.all isDigit then some groups.flatten else none

/-- The value of digits to a base. -/
def digitsValue (base : Nat) (ds : List Char) : Nat :=
  ds.foldl (fun n c => n * base + (hexDigit? c).getD 0) 0

/-- The number, if it has 64 bits. -/
def inRange? (n : Int) : Option Int :=
  if -9223372036854775808 ≤ n ∧ n ≤ 9223372036854775807 then some n else none

/-- Digits of a decimal number that has no zero in front of others. -/
def wholeDigits? (s : List Char) : Option (List Char) := do
  let ds ← ungrouped? Char.isDigit s
  if ds.length = 1 ∨ ds.head? ≠ some '0' then some ds else none

/-- Whether a character is a digit to a base. -/
def isDigitOf (base : Nat) (c : Char) : Bool :=
  match hexDigit? c with
  | some d => d < base
  | none => false

/-- The sign in front of a text, if there is one, and the rest. -/
def signed (s : List Char) : Bool × List Char :=
  match s with
  | '+' :: rest => (false, rest)
  | '-' :: rest => (true, rest)
  | _ => (false, s)

/-- A whole number. -/
def integer? (s : List Char) : Option Int :=
  match s with
  | '0' :: 'x' :: ds => do inRange? (digitsValue 16 (← ungrouped? (isDigitOf 16) ds))
  | '0' :: 'o' :: ds => do inRange? (digitsValue 8 (← ungrouped? (isDigitOf 8) ds))
  | '0' :: 'b' :: ds => do inRange? (digitsValue 2 (← ungrouped? (isDigitOf 2) ds))
  | _ => do
    let (negative, ds) := signed s
    let n : Int := digitsValue 10 (← wholeDigits? ds)
    inRange? (if negative then -n else n)

/-- A decimal number: digits times a power of ten. -/
structure Decimal where
  negative : Bool
  digits : List Char
  exponent : Int

/-- The value of an exponent without its letter. -/
def exponent? (s : List Char) : Option Int := do
  let (negative, ds) := signed s
  let n : Int := digitsValue 10 (← ungrouped? Char.isDigit ds)
  return if negative then -n else n

/-- A number with a fraction, an exponent or both. -/
def decimal? (s : List Char) : Option Decimal := do
  let (negative, body) := signed s
  let mantissa := body.takeWhile fun c => c != 'e' && c != 'E'
  let exponent ← match body.drop mantissa.length with
    | [] => some 0
    | _ :: exponent => exponent? exponent
  match mantissa.splitOn '.' with
  | [whole] =>
    if mantissa.length = body.length then none
    else some { negative, digits := ← wholeDigits? whole, exponent }
  | [whole, fraction] =>
    let fraction ← ungrouped? Char.isDigit fraction
    let whole ← wholeDigits? whole
    some { negative, digits := whole ++ fraction, exponent := exponent - fraction.length }
  | _ => none

/-- The least number that is rounded up out of the range of the binary format of 64 bits. It lies
halfway between the greatest finite number of the format and the power of two above. -/
def realBound : Nat := Nat.pow 2 1024 - Nat.pow 2 970

/-- Whether a number is positive and too large for the binary format of 64 bits. Its magnitude
decides, unless it has as many digits in front of the point as `realBound`, which are 309. -/
def Decimal.isTooLarge (d : Decimal) : Bool :=
  let digits := d.digits.dropWhile (· == '0')
  let places : Int := digits.length + d.exponent
  if d.negative || digits.isEmpty || places < 309 then false
  else if 309 < places then true
  else
    realBound * Nat.pow 10 (-d.exponent).toNat
      ≤ digitsValue 10 digits * Nat.pow 10 d.exponent.toNat

/-- Whether a text is a number with a fraction, an exponent or both, or not a finite number. -/
def isReal (s : List Char) : Bool :=
  let body := (signed s).2
  if body == ['i', 'n', 'f'] || body == ['n', 'a', 'n'] then true
  else
    match decimal? s with
    | some d => !d.isTooLarge
    | none => false

/-! ## Moments -/

/-- Reads a date. -/
def dateReader : Reader Unit := do
  let year ← numeral 4
  let _ ← oneOf ['-']
  let month ← numeral 2
  let _ ← oneOf ['-']
  let day ← numeral 2
  if (Date.of? year month day).isSome then pure () else failure

/-- Reads a time of day. -/
def timeReader : Reader Unit := do
  let hour ← numeral 2
  let _ ← oneOf [':']
  let minute ← numeral 2
  let _ ← oneOf [':']
  let second ← numeral 2
  if (← peek) = some '.' then
    let _ ← one
    let _ ← run1 Char.isDigit
  if hour < 24 ∧ minute < 60 ∧ second ≤ 60 then pure () else failure

/-- Reads an offset from UTC. -/
def offsetReader : Reader Unit := do
  match ← one with
  | 'Z' | 'z' => pure ()
  | '+' | '-' =>
    let hour ← numeral 2
    let _ ← oneOf [':']
    let minute ← numeral 2
    if hour < 24 ∧ minute < 60 then pure () else failure
  | _ => failure

/-- Reads a moment. -/
def momentReader : Reader Unit := do
  match ← optional dateReader with
  | none => timeReader
  | some () =>
    match ← peek with
    | none => pure ()
    | some _ =>
      let _ ← oneOf ['T', 't', ' ']
      timeReader
      match ← peek with
      | none => pure ()
      | some _ => offsetReader

/-- Whether a text is a moment. -/
def isMoment (s : List Char) : Bool := (momentReader.all? s).isSome

/-! ## Reading -/

/-- Characters of plain values. -/
def isScalarChar (c : Char) : Bool :=
  c.isAlphanum || c == '_' || c == '+' || c == '-' || c == '.' || c == ':'

/-- The plain value that a text is. -/
def scalar? (s : List Char) : Option Value :=
  if s = ['t', 'r', 'u', 'e'] then some (.boolean true)
  else if s = ['f', 'a', 'l', 's', 'e'] then some (.boolean false)
  else if isMoment s then some (.moment (String.ofList s))
  else if isReal s then some (.real (String.ofList s))
  else (integer? s).map .integer

/-- Reads a plain value. A date may have a blank between it and the time of day. -/
def scalar : Reader Value := do
  let text ← run1 isScalarChar
  let time ← optional do
    let _ ← oneOf [' ']
    let time ← run1 isScalarChar
    if (dateReader.all? text).isSome ∧ time[2]? = some ':' then pure time else failure
  let whole := match time with
    | some time => text ++ ' ' :: time
    | none => text
  match scalar? whole with
  | some v => pure v
  | none => failure

end Cron.Toml
