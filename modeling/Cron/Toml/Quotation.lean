import Cron.Text.Reader

/-!
# Quotations in TOML

A quotation stands between quotes: basic ones between `"`, where a backslash starts an escape, and
literal ones between `'`, where nothing does. Either kind can run over several lines between three
quotes; then a line break behind the opening quotes does not count, and neither do, in a basic
quotation, a backslash at the end of a line and all blanks and line breaks behind it.

Control characters other than the tab are not allowed, and a carriage return only in front of a
line feed.
-/

namespace Cron.Toml

/-- Whether a character may stand unescaped in a quotation. -/
def isPlain (c : Char) : Bool := c == '\t' || (0x20 ≤ c.toNat && c.toNat ≠ 0x7f)

/-- The character that a letter stands for behind a backslash. -/
def simpleEscape? : Char → Option Char
  | 'b' => some '\x08'
  | 't' => some '\t'
  | 'n' => some '\n'
  | 'f' => some '\x0c'
  | 'r' => some '\r'
  | '"' => some '"'
  | '\\' => some '\\'
  | _ => none

/-- The value of a hexadecimal digit. -/
def hexDigit? (c : Char) : Option Nat :=
  if c.isDigit then some (c.toNat - '0'.toNat)
  else if 'a' ≤ c ∧ c ≤ 'f' then some (c.toNat - 'a'.toNat + 10)
  else if 'A' ≤ c ∧ c ≤ 'F' then some (c.toNat - 'A'.toNat + 10)
  else none

/-- The character with a code point in hexadecimal; surrogates are none. -/
def codePoint? (digits : List Char) : Option Char := do
  let n ← digits.foldlM (fun n c => (hexDigit? c).map fun d => n * 16 + d) 0
  if n < 0xd800 ∨ (0xdfff < n ∧ n < 0x110000) then some (Char.ofNat n) else none

/-- Puts a character in front of what a quotation's rest stands for. -/
def prepend (c : Char) (rest : Option (List Char × List Char)) : Option (List Char × List Char) :=
  rest.map fun (quoted, behind) => (c :: quoted, behind)

/-- What the rest of a basic quotation stands for, and the text behind it. -/
def basicRest : List Char → Option (List Char × List Char)
  | [] => none
  | '"' :: behind => some ([], behind)
  | '\\' :: 'u' :: a :: b :: c :: d :: rest => do
    prepend (← codePoint? [a, b, c, d]) (basicRest rest)
  | '\\' :: 'U' :: a :: b :: c :: d :: e :: f :: g :: h :: rest => do
    prepend (← codePoint? [a, b, c, d, e, f, g, h]) (basicRest rest)
  | '\\' :: c :: rest => do prepend (← simpleEscape? c) (basicRest rest)
  | c :: rest => if isPlain c && c != '\\' then prepend c (basicRest rest) else none

/-- What the rest of a literal quotation stands for, and the text behind it. -/
def literalRest : List Char → Option (List Char × List Char)
  | [] => none
  | '\'' :: behind => some ([], behind)
  | c :: rest => if isPlain c then prepend c (literalRest rest) else none

/-- How far a backslash at the end of a line has taken effect. -/
inductive Fold where
  /-- There is none. -/
  | none
  /-- It has been read, and the line has to end. -/
  | opened
  /-- The line has ended: blanks and further line breaks do not count. -/
  | folding

/-- What the rest of a basic quotation over several lines stands for, and the text behind it. Up to
two quotes in front of the closing ones belong to it. -/
def basicLinesRest : Fold → List Char → Option (List Char × List Char)
  | _, [] => none
  | .opened, '\r' :: '\n' :: rest => basicLinesRest .folding rest
  | .opened, '\n' :: rest => basicLinesRest .folding rest
  | .opened, c :: rest => if c == ' ' || c == '\t' then basicLinesRest .opened rest else none
  | .folding, '\r' :: '\n' :: rest => basicLinesRest .folding rest
  | .folding, '\n' :: rest => basicLinesRest .folding rest
  | .folding, ' ' :: rest => basicLinesRest .folding rest
  | .folding, '\t' :: rest => basicLinesRest .folding rest
  | _, '"' :: '"' :: '"' :: '"' :: '"' :: behind => some (['"', '"'], behind)
  | _, '"' :: '"' :: '"' :: '"' :: behind => some (['"'], behind)
  | _, '"' :: '"' :: '"' :: behind => some ([], behind)
  | _, '\\' :: 'u' :: a :: b :: c :: d :: rest => do
    prepend (← codePoint? [a, b, c, d]) (basicLinesRest .none rest)
  | _, '\\' :: 'U' :: a :: b :: c :: d :: e :: f :: g :: h :: rest => do
    prepend (← codePoint? [a, b, c, d, e, f, g, h]) (basicLinesRest .none rest)
  | _, '\\' :: '\r' :: '\n' :: rest => basicLinesRest .folding rest
  | _, '\\' :: c :: rest =>
    if c == '\n' then basicLinesRest .folding rest
    else if c == ' ' || c == '\t' then basicLinesRest .opened rest
    else do prepend (← simpleEscape? c) (basicLinesRest .none rest)
  | _, '\r' :: '\n' :: rest => prepend '\n' (basicLinesRest .none rest)
  | _, '\n' :: rest => prepend '\n' (basicLinesRest .none rest)
  | _, c :: rest =>
    if isPlain c && c != '\\' then prepend c (basicLinesRest .none rest) else none

/-- What the rest of a literal quotation over several lines stands for, and the text behind it. -/
def literalLinesRest : List Char → Option (List Char × List Char)
  | [] => none
  | '\'' :: '\'' :: '\'' :: '\'' :: '\'' :: behind => some (['\'', '\''], behind)
  | '\'' :: '\'' :: '\'' :: '\'' :: behind => some (['\''], behind)
  | '\'' :: '\'' :: '\'' :: behind => some ([], behind)
  | '\r' :: '\n' :: rest => prepend '\n' (literalLinesRest rest)
  | '\n' :: rest => prepend '\n' (literalLinesRest rest)
  | c :: rest => if isPlain c then prepend c (literalLinesRest rest) else none

/-- The text without a line break at its front. -/
def dropLineBreak : List Char → List Char
  | '\r' :: '\n' :: rest => rest
  | '\n' :: rest => rest
  | s => s

/-- Reads a quotation on one line. -/
def lineQuotation : Reader (List Char)
  | '"' :: rest => basicRest rest
  | '\'' :: rest => literalRest rest
  | _ => none

/-- Reads a quotation. -/
def quotation : Reader (List Char)
  | '"' :: '"' :: '"' :: rest => basicLinesRest .none (dropLineBreak rest)
  | '\'' :: '\'' :: '\'' :: rest => literalLinesRest (dropLineBreak rest)
  | s => lineQuotation s

end Cron.Toml
