import DotModel.Settings.Value
import DotModel.Text.Quoted

/-!
# Strings and scalars of TOML

The four kinds of strings, and the values that are one word: truth values, numbers, dates and
times.  A scan takes the text after an opening delimiter and returns what was read with what
follows the closing one.
-/

namespace DotModel.Settings.Toml

open Text

def isBlank (c : Char) : Bool := c == ' ' || c == '\t'

/-- A string in single quotes on one line, without escapes. -/
def scanLiteral : List Char → Option (List Char × List Char)
  | [] => none
  | '\'' :: rest => some ([], rest)
  | c :: rest => if isTextChar c then push c (scanLiteral rest) else none

/-- How a string over several lines goes on behind a backslash at the end of a line. -/
inductive Trim where
  /-- No such backslash. -/
  | off
  /-- After the backslash; its line has to end. -/
  | line
  /-- After the end of the line; blanks and further lines are left out. -/
  | skip
  deriving DecidableEq

/-- A string in three double quotes; up to two quotes may stand before the closing ones.  Every
line ends with a line feed. -/
def scanLongBasic : Trim → List Char → Option (List Char × List Char)
  | _, [] => none
  | .line, '\n' :: rest => scanLongBasic .skip rest
  | .line, '\r' :: '\n' :: rest => scanLongBasic .skip rest
  | .line, c :: rest => if isBlank c then scanLongBasic .line rest else none
  | trim, '\r' :: '\n' :: rest =>
    if trim = .skip then scanLongBasic .skip rest else push '\n' (scanLongBasic .off rest)
  | trim, '\n' :: rest =>
    if trim = .skip then scanLongBasic .skip rest else push '\n' (scanLongBasic .off rest)
  | _, '"' :: '"' :: '"' :: '"' :: '"' :: rest => some (['"', '"'], rest)
  | _, '"' :: '"' :: '"' :: '"' :: rest => some (['"'], rest)
  | _, '"' :: '"' :: '"' :: rest => some ([], rest)
  | _, '\\' :: 'u' :: a :: b :: c :: d :: rest =>
    (digits? 16 [a, b, c, d] >>= charOf?).bind fun x => push x (scanLongBasic .off rest)
  | _, '\\' :: 'U' :: a :: b :: c :: d :: e :: f :: g :: h :: rest =>
    (digits? 16 [a, b, c, d, e, f, g, h] >>= charOf?).bind fun x =>
      push x (scanLongBasic .off rest)
  | _, '\\' :: '\n' :: rest => scanLongBasic .skip rest
  | _, '\\' :: '\r' :: '\n' :: rest => scanLongBasic .skip rest
  | _, '\\' :: c :: rest =>
    if isBlank c then scanLongBasic .line rest
    else (unescape? c).bind fun x => push x (scanLongBasic .off rest)
  | trim, c :: rest =>
    if trim = .skip && isBlank c then scanLongBasic .skip rest
    else if isTextChar c then push c (scanLongBasic .off rest)
    else none

/-- A string in three single quotes; up to two quotes may stand before the closing ones.  Every
line ends with a line feed. -/
def scanLongLiteral : List Char → Option (List Char × List Char)
  | [] => none
  | '\'' :: '\'' :: '\'' :: '\'' :: '\'' :: rest => some (['\'', '\''], rest)
  | '\'' :: '\'' :: '\'' :: '\'' :: rest => some (['\''], rest)
  | '\'' :: '\'' :: '\'' :: rest => some ([], rest)
  | '\r' :: '\n' :: rest => push '\n' (scanLongLiteral rest)
  | '\n' :: rest => push '\n' (scanLongLiteral rest)
  | c :: rest => if isTextChar c then push c (scanLongLiteral rest) else none

/-- The text without a line end at its start. -/
def dropLineEnd : List Char → List Char
  | '\n' :: rest => rest
  | '\r' :: '\n' :: rest => rest
  | text => text

/-- A string of any kind. -/
def string? : List Char → Option (List Char × List Char)
  | '"' :: '"' :: '"' :: rest => scanLongBasic .off (dropLineEnd rest)
  | '"' :: rest => scanQuoted rest
  | '\'' :: '\'' :: '\'' :: rest => scanLongLiteral (dropLineEnd rest)
  | '\'' :: rest => scanLiteral rest
  | _ => none

/-! ## Numbers -/

/-- The digits without the underscores between them; none if an underscore does not stand between
two digits. -/
def joinDigits (isDigit : Char → Bool) : List Char → Option (List Char)
  | [] => none
  | [c] => if isDigit c then some [c] else none
  | c :: '_' :: rest => if isDigit c then (c :: ·) <$> joinDigits isDigit rest else none
  | c :: rest => if isDigit c then (c :: ·) <$> joinDigits isDigit rest else none

/-- Digits without a superfluous zero in front. -/
def wholeDigits? (text : List Char) : Option (List Char) :=
  match joinDigits Char.isDigit text with
  | some ('0' :: _ :: _) => none
  | digits => digits

/-- Whole numbers fit into 64 bits with a sign. -/
def ofInt? (n : Int) : Option Value :=
  if -Int.pow 2 63 ≤ n ∧ n < Int.pow 2 63 then some (.int n) else none

/-- A number in a base other than ten. -/
def basedInt? (base : Nat) (text : List Char) : Option Value := do
  let ds ← joinDigits (fun c => (digitValue? base c).isSome) text
  ofInt? (← digits? base ds)

/-- A decimal number without fraction and exponent. -/
def decimalInt? (text : List Char) : Option Value := do
  let (negative, text) := splitSign text
  let n ← wholeDigits? text >>= digits? 10
  ofInt? (if negative then -n else n)

/-- Whether these digits, with the point moved by `exponent` places to the right, stand for a number
of at least 2¹⁰²⁴ - 2⁹⁷⁰, from where on the nearest number of 64 bits is infinite. -/
def overflows (digits : List Char) (exponent : Int) : Bool :=
  let digits := digits.dropWhile (· == '0')
  let n := (digits? 10 digits).getD 0
  let places := digits.length + exponent
  let bound := Nat.pow 2 1024 - Nat.pow 2 970
  if digits.isEmpty || places < 308 then false
  else if 310 < places then true
  else if 0 ≤ exponent then bound ≤ n * Nat.pow 10 exponent.toNat
  else bound * Nat.pow 10 (-exponent).toNat ≤ n

def isDigitOrUnderscore (c : Char) : Bool := c.isDigit || c == '_'

/-- A decimal number with a fraction or an exponent; one that is too large to be finite is none. -/
def fraction? (text : List Char) : Option Value := do
  let (negative, text) := splitSign text
  let (whole, rest) := text.span isDigitOrUnderscore
  let wholeDigits ← wholeDigits? whole
  let (fraction, rest) :=
    match rest with
    | '.' :: rest => (some (rest.takeWhile isDigitOrUnderscore), rest.dropWhile isDigitOrUnderscore)
    | rest => (none, rest)
  let fractionDigits ← fraction.elim (some []) (joinDigits Char.isDigit)
  let exponent ←
    match rest with
    | [] => if fraction.isSome then some 0 else none
    | c :: rest =>
      if c == 'e' || c == 'E' then do
        let (down, ds) := splitSign rest
        let n ← joinDigits Char.isDigit ds >>= digits? 10
        some (if down then -(n : Int) else n)
      else none
  if !negative && overflows (wholeDigits ++ fractionDigits) (exponent - fractionDigits.length) then
    none
  else
    some .fraction

/-! ## Dates and times -/

/-- A number of exactly `width` digits between the given bounds. -/
def field? (width least greatest : Nat) (text : List Char) : Option (Nat × List Char) := do
  let ds := text.take width
  if ds.length = width then
    let n ← digits? 10 ds
    if least ≤ n ∧ n ≤ greatest then some (n, text.drop width) else none
  else none

/-- What follows a given character. -/
def after? (c : Char) : List Char → Option (List Char)
  | x :: rest => if x = c then some rest else none
  | [] => none

def isLeapYear (year : Nat) : Bool := year % 4 == 0 && (year % 100 != 0 || year % 400 == 0)

def daysIn (year month : Nat) : Nat :=
  if month = 2 then if isLeapYear year then 29 else 28
  else if month = 4 ∨ month = 6 ∨ month = 9 ∨ month = 11 then 30
  else 31

/-- What follows a date. -/
def afterDate? (text : List Char) : Option (List Char) := do
  let (year, text) ← field? 4 0 9999 text
  let (month, text) ← field? 2 1 12 (← after? '-' text)
  let (_, text) ← field? 2 1 (daysIn year month) (← after? '-' text)
  some text

/-- What follows a time of day.  Seconds may be 60, for leap seconds. -/
def afterTime? (text : List Char) : Option (List Char) := do
  let (_, text) ← field? 2 0 23 text
  let (_, text) ← field? 2 0 59 (← after? ':' text)
  let (_, text) ← field? 2 0 60 (← after? ':' text)
  match text with
  | '.' :: rest => afterDigits rest
  | text => some text

/-- Whether the text is an offset from universal time, or empty. -/
def isOffset : List Char → Bool
  | [] => true
  | ['Z'] | ['z'] => true
  | c :: rest =>
    (c == '+' || c == '-') &&
      ((do
        let (_, text) ← field? 2 0 23 rest
        let (_, text) ← field? 2 0 59 (← after? ':' text)
        some text) == some [])

/-- Whether the word is a date, a time of day, or both. -/
def isDateTime (word : List Char) : Bool :=
  match afterDate? word with
  | some [] => true
  | some (c :: rest) => (c == 'T' || c == 't' || c == ' ') && (afterTime? rest).any isOffset
  | none => afterTime? word == some []

/-! ## Words -/

def isWordChar (c : Char) : Bool :=
  c.isAlphanum || c == '_' || c == '-' || c == '+' || c == '.' || c == ':'

/-- The value that a word stands for. -/
def word? (word : List Char) : Option Value :=
  if word = ['t', 'r', 'u', 'e'] then some (.bool true)
  else if word = ['f', 'a', 'l', 's', 'e'] then some (.bool false)
  else if isDateTime word then some .date
  else
    match word with
    | '0' :: 'x' :: rest => basedInt? 16 rest
    | '0' :: 'o' :: rest => basedInt? 8 rest
    | '0' :: 'b' :: rest => basedInt? 2 rest
    | word =>
      let unsigned := (splitSign word).2
      if unsigned = ['i', 'n', 'f'] ∨ unsigned = ['n', 'a', 'n'] then some .fraction
      else (decimalInt? word).or (fraction? word)

/-- A value of one word.  A date and a time may have a blank between them. -/
def scalar? (text : List Char) : Option (Value × List Char) :=
  let word := text.takeWhile isWordChar
  let rest := text.dropWhile isWordChar
  match rest with
  | ' ' :: c :: more =>
    if afterDate? word == some [] && c.isDigit then
      (word? (word ++ ' ' :: (c :: more).takeWhile isWordChar)).map
        (·, (c :: more).dropWhile isWordChar)
    else (word? word).map (·, rest)
  | rest => (word? word).map (·, rest)

end DotModel.Settings.Toml
