import Cron.Text.Hidden

/-!
# Quoted text

`quoted` puts a text between double quotes on one line. A quote or backslash gets a backslash in
front; tab, line feed, carriage return and NUL have letters of their own; any other hidden character
is written by its code point in hexadecimal, between braces. All else stands as it is, a single
quote included. This is the `Debug` form of a text, in which the program's errors quote what they are
about.
-/

namespace Cron.Text

/-- How one character is written between double quotes. -/
def escaped (c : Char) : List Char :=
  match c with
  | '"' => ['\\', '"']
  | '\\' => ['\\', '\\']
  | '\n' => ['\\', 'n']
  | '\r' => ['\\', 'r']
  | '\t' => ['\\', 't']
  | '\x00' => ['\\', '0']
  | c =>
    if isHidden c then ['\\', 'u', '{'] ++ Nat.toDigits 16 c.toNat ++ ['}']
    else [c]

/-- The text between double quotes. -/
def quoted (s : String) : String :=
  String.ofList ('"' :: s.toList.flatMap escaped ++ ['"'])

/-! ## Laws -/

/-- A printable ASCII character other than the quote and the backslash stands as it is. -/
theorem escaped_of_plain {c : Char} (h : 0x20 ≤ c.toNat ∧ c.toNat < 0x7f) (hq : c ≠ '"')
    (hb : c ≠ '\\') : escaped c = [c] := by
  unfold escaped
  split
  · exact absurd rfl hq
  · exact absurd rfl hb
  · exact absurd h (by decide)
  · exact absurd h (by decide)
  · exact absurd h (by decide)
  · exact absurd h (by decide)
  · have : isHidden c = false := by simp [isHidden, h]
    simp [this]

end Cron.Text
