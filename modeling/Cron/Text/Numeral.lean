/-!
# Decimal numerals

A numeral is a non-empty run of ASCII digits. `numeral?` reads one, `numeralUpTo?` refuses values
above a bound, and `decimal` writes one without leading zeros. Reading takes back what writing
produced (`numeral?_decimal`), leading zeros or not.

`padded` writes with at least a given number of digits.
-/

namespace Cron.Text

/-- The value of a numeral, or `none` if the text is empty or holds anything but digits. -/
def numeral? (s : List Char) : Option Nat :=
  if s ≠ [] ∧ s.all Char.isDigit then some (Nat.ofDigitChars 10 s 0) else none

/-- The value of a numeral that is at most `bound`. -/
def numeralUpTo? (bound : Nat) (s : List Char) : Option Nat :=
  (numeral? s).filter (· ≤ bound)

/-- The numeral of a number, without leading zeros. -/
def decimal (n : Nat) : List Char := Nat.toDigits 10 n

/-- The numeral of a number with zeros in front, up to `width` digits in all. -/
def padded (width n : Nat) : List Char := (decimal n).leftpad width '0'

/-! ## Laws -/

theorem numeral?_eq_some {s : List Char} (h : s ≠ []) (hd : ∀ c ∈ s, c.isDigit = true) :
    numeral? s = some (Nat.ofDigitChars 10 s 0) := by
  simp [numeral?, h, List.all_eq_true.mpr hd]

theorem numeral?_decimal (n : Nat) : numeral? (decimal n) = some n := by
  rw [decimal, numeral?_eq_some Nat.toDigits_ne_nil
    fun c hc => Nat.isDigit_of_mem_toDigits (by decide) (by decide) hc]
  rw [Nat.ofDigitChars_toDigits (by decide) (by decide)]

theorem numeralUpTo?_decimal {bound n : Nat} (h : n ≤ bound) :
    numeralUpTo? bound (decimal n) = some n := by
  simp [numeralUpTo?, numeral?_decimal, h]

end Cron.Text
