import DotModel.Literal.Language

/-!
# Scans with flags and counters

The forms of an identifier, recognised by one loop over the characters that keeps a flag or a
counter: whether a point was seen, whether the next character is escaped, and how many brackets are
open.  The brackets are counted with a number that cannot become negative, so that scan gives
nothing if one more is closed than was opened.  Where the outer bracket is closed, that scan
compares byte positions to see whether the text ends there.
-/

namespace DotModel.Literal

/-- Reads digits on, with a point among them if none was seen before. -/
def scanDigits : (seenPoint : Bool) → List Char → Bool
  | _, [] => true
  | false, '.' :: rest => scanDigits true rest
  | seenPoint, c :: rest => c.isDigit && scanDigits seenPoint rest

/-- The text without a minus in front. -/
def dropMinus : List Char → List Char
  | '-' :: rest => rest
  | text => text

/-- Whether the text is a numeral: digits and a point, but not nothing and not the point alone. -/
def scanNumeral (text : List Char) : Bool :=
  let digits := dropMinus text
  if digits = [] ∨ digits = ['.'] then false else scanDigits false digits

/-- What stands between a quote at the start and another one at the end. -/
def betweenQuotes : List Char → Option (List Char)
  | '"' :: rest => if rest.getLast? = some '"' then some rest.dropLast else none
  | _ => none

/-- Whether each quote in the text is escaped, and whatever follows the text is not. -/
def scanEscapes : (escaped : Bool) → List Char → Bool
  | escaped, [] => !escaped
  | escaped, c :: rest =>
    if c = '"' ∧ escaped = false then false
    else scanEscapes (decide (c = '\\') && !escaped) rest

/-- The length of the text in bytes. -/
def byteLength : List Char → Nat
  | [] => 0
  | c :: rest => c.utf8Size + byteLength rest

/-- Counts the open brackets from the byte `position` on, up to the end of the string; `none` if a
bracket is closed while none is open.  The whole text has `size` bytes. -/
def scanBrackets (size : Nat) : (depth position : Nat) → List Char → Option Bool
  | _, _, [] => some false
  | depth, position, '<' :: rest => scanBrackets size (depth + 1) (position + 1) rest
  | 0, _, '>' :: _ => none
  | depth + 1, position, '>' :: rest =>
    if depth = 0 then some (position + 1 = size) else scanBrackets size depth (position + 1) rest
  | depth, position, c :: rest => scanBrackets size depth (position + c.utf8Size) rest

/-- Whether the text is an HTML string. -/
def scanAngles (text : List Char) : Option Bool :=
  if text.head? = some '<' then scanBrackets (byteLength text) 0 0 text else some false

/-- Whether the text is one of a form, as its scan finds out. -/
def Form.scan : Form → List Char → Option Bool
  | word, text => some (isPlain text)
  | numeral, text => some (scanNumeral text)
  | quoted, text => some ((betweenQuotes text).any (scanEscapes false))
  | html, text => scanAngles text

end DotModel.Literal
