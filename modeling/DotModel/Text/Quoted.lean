import DotModel.Text.Numeral

/-!
# Quoted text with escapes

Text between double quotes in which a backslash begins an escape: a letter for a control character,
a quote or backslash for itself, or `u` and `U` before the number of a character in four or eight
hexadecimal digits.
-/

namespace DotModel.Text

/-- The character with this number; the halves of surrogate pairs are none. -/
def charOf? (n : Nat) : Option Char := if n.isValidChar then some (Char.ofNat n) else none

/-- The character that a backslash and this letter stand for. -/
def unescape? : Char → Option Char
  | 'b' => some '\x08'
  | 't' => some '\t'
  | 'n' => some '\n'
  | 'f' => some '\x0c'
  | 'r' => some '\r'
  | '"' => some '"'
  | '\\' => some '\\'
  | _ => none

/-- Tabs and every character that is no control character may stand for themselves. -/
def isTextChar (c : Char) : Bool := c == '\t' || (32 ≤ c.toNat && c.toNat != 127)

/-- A character in front of what was scanned. -/
def push (c : Char) (scanned : Option (List Char × List Char)) : Option (List Char × List Char) :=
  scanned.map fun r => (c :: r.1, r.2)

/-- Reads on from an opening quote: what the text stands for, and what follows the closing
quote. -/
def scanQuoted : List Char → Option (List Char × List Char)
  | [] => none
  | '"' :: rest => some ([], rest)
  | '\\' :: 'u' :: a :: b :: c :: d :: rest =>
    (digits? 16 [a, b, c, d] >>= charOf?).bind fun x => push x (scanQuoted rest)
  | '\\' :: 'U' :: a :: b :: c :: d :: e :: f :: g :: h :: rest =>
    (digits? 16 [a, b, c, d, e, f, g, h] >>= charOf?).bind fun x => push x (scanQuoted rest)
  | '\\' :: c :: rest => (unescape? c).bind fun x => push x (scanQuoted rest)
  | c :: rest => if isTextChar c then push c (scanQuoted rest) else none

end DotModel.Text
