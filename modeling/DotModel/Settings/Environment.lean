import DotModel.Settings.Merge
import DotModel.Text.Pieces
import DotModel.Text.Quoted

/-!
# Settings in the environment

A variable whose name starts with `DOTGRAPH_`, in whatever case, sets the key in the rest of its
name.  Its text is read as a truth value, a number, a character or text in quotes, a list in square
brackets or a table in braces.  Any other text stands for itself: without the white space at its
ends if it has no separators of lists and tables in it, and exactly as it is otherwise.
-/

namespace DotModel.Settings.Environment

open Text

/-! ## Blanks -/

/-- The characters with the property `White_Space`. -/
def isWhiteSpace (c : Char) : Bool :=
  let n := c.toNat
  (9 ≤ n && n ≤ 13) || n == 0x20 || n == 0x85 || n == 0xa0 || n == 0x1680 ||
    (0x2000 ≤ n && n ≤ 0x200a) || n == 0x2028 || n == 0x2029 || n == 0x202f || n == 0x205f ||
    n == 0x3000

/-- The text without white space at its ends. -/
def trim (text : List Char) : List Char :=
  ((text.dropWhile isWhiteSpace).reverse.dropWhile isWhiteSpace).reverse

/-- White space in ASCII, without the vertical tab. -/
def isBlank (c : Char) : Bool :=
  c == ' ' || c == '\t' || c == '\n' || c == '\r' || c == '\x0c'

def dropBlanks (text : List Char) : List Char := text.dropWhile isBlank

/-! ## Words -/

/-- Whether the text is a number with a decimal point, with a digit on at least one side of it and
perhaps an exponent. -/
def isFraction (text : List Char) : Bool :=
  let unsigned := (splitSign text).2
  match unsigned.dropWhile Char.isDigit with
  | '.' :: fraction =>
    (unsigned.head?.any Char.isDigit || fraction.head?.any Char.isDigit) &&
      isExponent (fraction.dropWhile Char.isDigit)
  | _ => false

/-- The whole number that the text stands for, if it fits into 64 bits with or without a sign. -/
def int? (text : List Char) : Option Int := do
  let (negative, ds) := splitSign text
  let n ← digits? 10 ds
  if negative then
    if n ≤ Nat.pow 2 63 then some (-n) else none
  else
    if n < Nat.pow 2 64 then some n else none

/-- The value of a text without quotes and brackets. -/
def word (text : List Char) : Value :=
  match int? text with
  | some n => .int n
  | none => if isFraction text then .fraction else .text (String.ofList text)

/-! ## Text in quotes -/

/-- The characters at the start of a text that fit into so many bytes. -/
def fitting : (bytes : Nat) → List Char → List Char
  | _, [] => []
  | bytes, c :: rest => if c.utf8Size ≤ bytes then c :: fitting (bytes - c.utf8Size) rest else []

/-- Reads on from an opening quote, as `scanQuoted` does.  If there are escapes, what stands before
the first of them is kept only up to as many bytes as it has characters. -/
def scanString (text : List Char) : Option (List Char × List Char) :=
  let plain := text.takeWhile fun c => c != '"' && c != '\\'
  match text.drop plain.length with
  | '\\' :: _ =>
    (scanQuoted text).map fun r => (fitting plain.length plain ++ r.1.drop plain.length, r.2)
  | _ => scanQuoted text

/-! ## Values -/

/-- The characters that end a word. -/
def isSeparator (c : Char) : Bool :=
  c == ',' || c == '[' || c == ']' || c == '\x7b' || c == '\x7d'

def isKeyChar (c : Char) : Bool := c.isAlphanum || c == '_' || c == '-'

/-- A key of a table. -/
def key? : List Char → Option (String × List Char)
  | '"' :: rest => (scanString rest).map fun r => (String.ofList r.1, r.2)
  | text =>
    match text.span isKeyChar with
    | ([], _) => none
    | (chars, rest) => some (String.ofList chars, rest)

mutual

/-- A value with the blanks around it.  Each step takes one unit of the supply. -/
def value? : (supply : Nat) → List Char → Option (Value × List Char)
  | 0, _ => none
  | supply + 1, text => do
    let (value, rest) ←
      match dropBlanks text with
      | 't' :: 'r' :: 'u' :: 'e' :: rest => some (.bool true, rest)
      | 'f' :: 'a' :: 'l' :: 's' :: 'e' :: rest => some (.bool false, rest)
      | '[' :: rest => items? supply [] rest
      | '\x7b' :: rest => pairs? supply [] rest
      | '"' :: rest => (scanString rest).map fun r => (.text (String.ofList r.1), r.2)
      | '\'' :: c :: '\'' :: rest => some (.text (String.singleton c), rest)
      | '\'' :: _ => none
      | text => some (word (trim (text.takeWhile fun c => !isSeparator c)),
          text.dropWhile fun c => !isSeparator c)
    some (value, dropBlanks rest)

/-- The items of a list after those in `done`, last ones first.  A comma may follow the last. -/
def items? : (supply : Nat) → (done : List Value) → List Char → Option (Value × List Char)
  | 0, _, _ => none
  | _ + 1, done, ']' :: rest => some (.list done.reverse, rest)
  | supply + 1, done, text => do
    let (item, rest) ← value? supply text
    match rest with
    | ',' :: rest => items? supply (item :: done) rest
    | ']' :: rest => some (.list (item :: done).reverse, rest)
    | _ => none

/-- The entries of a table after those in `done`, last ones first.  A comma may follow the last. -/
def pairs? : (supply : Nat) → (done : List (String × Value)) → List Char →
    Option (Value × List Char)
  | 0, _, _ => none
  | _ + 1, done, '\x7d' :: rest => some (.table done.reverse, rest)
  | supply + 1, done, text => do
    let (key, rest) ← key? (dropBlanks text)
    match dropBlanks rest with
    | '=' :: rest => do
      let (value, rest) ← value? supply rest
      match rest with
      | ',' :: rest => pairs? supply ((key, value) :: done) rest
      | '\x7d' :: rest => some (.table ((key, value) :: done).reverse, rest)
      | _ => none
    | _ => none

end

/-- The value of a variable's text, which is the text itself if it is not a value in full. -/
def read (text : String) : Value :=
  let chars := text.toList
  match value? (2 * chars.length + 2) chars with
  | some (value, []) => value
  | _ => .text text

/-! ## Variables -/

/-- What the names of settings variables start with, in lower case. -/
def namePrefix : List Char := ['d', 'o', 't', 'g', 'r', 'a', 'p', 'h', '_']

/-- The key that a variable sets, in lower case; none if it is no settings variable. -/
def key (name : String) : Option (List Char) :=
  let name := (trim name.toList).map Char.toLower
  if namePrefix.isPrefixOf name then some (trim (name.drop namePrefix.length)) else none

/-- What a variable sets: the first piece of its key to its value, inside of a table for each
further piece. -/
def entry? (read : String → Value) (name text : String) : Option (String × Value) := do
  let pieces := pieces '.' (← key name)
  if pieces.any List.isEmpty then none
  else
    match pieces.map String.ofList with
    | [] => none
    | first :: rest =>
      some (first, rest.foldr (fun piece inner => .table [(piece, inner)]) (read text))

/-- What the variables set.  A variable that is assigned again keeps its place and takes the new
text. -/
def entries (read : String → Value) (assigned : List (String × String)) : List (String × Value) :=
  (OrdMap.ofList assigned).toList.filterMap fun v => entry? read v.1 v.2

/-- The layer of the variables. -/
def layer (read : String → Value) (assigned : List (String × String)) : Layer :=
  Layer.merge ∅ (entries read assigned)

end DotModel.Settings.Environment
