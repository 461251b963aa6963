/-!
# Blank characters

`isBlank` is the Unicode property White_Space: 25 characters, from the tab to the ideographic
space. The zero-width characters, the byte-order mark and the four information separators do not
have the property.

These are the characters that the program's `trim` takes off a text, and that `\s` stands for in its
regular expressions.

`trim` cuts blanks off both ends, `words` lists the maximal runs of characters that are not blank.
-/

namespace Cron.Text

/-- The characters with the property White_Space. -/
def isBlank (c : Char) : Bool :=
  let n := c.toNat
  (0x09 ≤ n && n ≤ 0x0d) || n == 0x20 || n == 0x85 || n == 0xa0 || n == 0x1680
    || (0x2000 ≤ n && n ≤ 0x200a) || n == 0x2028 || n == 0x2029 || n == 0x202f
    || n == 0x205f || n == 0x3000

/-- The text without the blanks at its front. -/
def trimLeft (s : List Char) : List Char := s.dropWhile isBlank

/-- The text without the blanks at its end. -/
def trimRight (s : List Char) : List Char := (s.reverse.dropWhile isBlank).reverse

/-- The text without the blanks at its two ends. -/
def trim (s : List Char) : List Char := trimRight (trimLeft s)

/-- The maximal runs of characters that are not blank, in order. -/
def words (s : List Char) : List (List Char) :=
  (s.splitOnP isBlank).filter fun w => !w.isEmpty

/-! ## Laws -/

theorem words_nil : words [] = [] := rfl

/-- A blank at the front adds no word. -/
theorem words_cons_blank {c : Char} (h : isBlank c = true) (s : List Char) :
    words (c :: s) = words s := by
  simp [words, List.splitOnP_cons_eq_if_modifyHead, h]

end Cron.Text
