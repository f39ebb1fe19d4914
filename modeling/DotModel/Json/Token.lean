import DotModel.Text.Numeral

/-!
# JSON tokens

JSON text as a sequence of tokens: `Token.text` writes one token, and `lex` reads a text.  Blanks
may stand between any two tokens.  A *word* is an unbroken run of characters that are neither
blanks, quotes nor punctuation; it has to be `null`, a truth value or a number.
-/

namespace DotModel.Json

open Text (digits? hexDigit afterDigits isExponent)

/-- A token.  Of a number nothing is kept.  A string in which an escape names half of a surrogate
pair denotes no text. -/
inductive Token where
  | openArr
  | closeArr
  | openObj
  | closeObj
  | colon
  | comma
  | null
  | bool (value : Bool)
  | num
  | str (text : Option String)
  deriving DecidableEq

/-! ## Writing -/

/-- A character inside a string. -/
def escapeChar (c : Char) : List Char :=
  if c = '"' then ['\\', '"']
  else if c = '\\' then ['\\', '\\']
  else if c = '\n' then ['\\', 'n']
  else if c = '\r' then ['\\', 'r']
  else if c = '\t' then ['\\', 't']
  else if c.toNat = 8 then ['\\', 'b']
  else if c.toNat = 12 then ['\\', 'f']
  else if c.toNat < 32 then ['\\', 'u', '0', '0', hexDigit (c.toNat / 16), hexDigit c.toNat]
  else [c]

/-- A string literal. -/
def quoteString (text : List Char) : List Char := '"' :: (text.flatMap escapeChar ++ ['"'])

/-- A string literal that denotes no text. -/
def unpairedLiteral : List Char := ['"', '\\', 'u', 'd', '8', '0', '0', '"']

/-- One written form of a token. -/
def Token.text : Token → List Char
  | .openArr => ['[']
  | .closeArr => [']']
  | .openObj => ['\x7b']
  | .closeObj => ['\x7d']
  | .colon => [':']
  | .comma => [',']
  | .null => ['n', 'u', 'l', 'l']
  | .bool true => ['t', 'r', 'u', 'e']
  | .bool false => ['f', 'a', 'l', 's', 'e']
  | .num => ['0']
  | .str (some text) => quoteString text.toList
  | .str none => unpairedLiteral

/-! ## Strings -/

/-- The character that a backslash and this letter stand for. -/
def unescape? : Char → Option Nat
  | '"' => some 34
  | '\\' => some 92
  | '/' => some 47
  | 'b' => some 8
  | 'f' => some 12
  | 'n' => some 10
  | 'r' => some 13
  | 't' => some 9
  | _ => none

/-- Reads a string literal after its opening quote: the numbers of its characters and of the halves
of surrogate pairs that it names, and what follows the closing quote. -/
def scanString : List Char → Option (List Nat × List Char)
  | [] => none
  | '"' :: rest => some ([], rest)
  | '\\' :: 'u' :: a :: b :: c :: d :: rest => do
    let unit ← digits? 16 [a, b, c, d]
    let (units, rest) ← scanString rest
    some (unit :: units, rest)
  | '\\' :: c :: rest => do
    let unit ← unescape? c
    let (units, rest) ← scanString rest
    some (unit :: units, rest)
  | c :: rest =>
    if c.toNat < 32 then none
    else do
      let (units, rest) ← scanString rest
      some (c.toNat :: units, rest)

theorem length_of_scanString {s rest : List Char} {units : List Nat}
    (h : scanString s = some (units, rest)) : rest.length < s.length := by
  fun_induction scanString s generalizing units rest with
  | case1 => simp at h
  | case2 tail =>
    cases h
    simp
  | case3 a b c d tail ih =>
    simp only [Option.bind_eq_bind, Option.bind_eq_some_iff] at h
    obtain ⟨_, _, ⟨us, r⟩, hr, he⟩ := h
    cases he
    have := ih hr
    simp only [List.length_cons]
    omega
  | case4 c tail _ ih =>
    simp only [Option.bind_eq_bind, Option.bind_eq_some_iff] at h
    obtain ⟨_, _, ⟨us, r⟩, hr, he⟩ := h
    cases he
    have := ih hr
    simp only [List.length_cons]
    omega
  | case5 => simp at h
  | case6 c tail _ _ _ _ ih =>
    simp only [Option.bind_eq_bind, Option.bind_eq_some_iff] at h
    obtain ⟨⟨us, r⟩, hr, he⟩ := h
    cases he
    have := ih hr
    simp only [List.length_cons]
    omega

def isHighSurrogate (unit : Nat) : Bool := 0xd800 ≤ unit && unit < 0xdc00

def isLowSurrogate (unit : Nat) : Bool := 0xdc00 ≤ unit && unit < 0xe000

/-- The characters with these numbers, where the two halves of a surrogate pair count as one; none
if a half stands alone. -/
def joinUnits : List Nat → Option (List Char)
  | [] => some []
  | [unit] => if isHighSurrogate unit || isLowSurrogate unit then none else some [Char.ofNat unit]
  | unit :: next :: rest =>
    if isHighSurrogate unit then
      if isLowSurrogate next then
        (Char.ofNat (0x10000 + (unit - 0xd800) * 0x400 + (next - 0xdc00)) :: ·) <$> joinUnits rest
      else none
    else if isLowSurrogate unit then none
    else (Char.ofNat unit :: ·) <$> joinUnits (next :: rest)

/-! ## Numbers -/

/-- What follows a whole number without superfluous zeros. -/
def afterInteger : List Char → Option (List Char)
  | '0' :: rest => some rest
  | text => afterDigits text

/-- What follows a fraction, if there is one. -/
def afterFraction : List Char → Option (List Char)
  | '.' :: rest => afterDigits rest
  | text => some text

/-- Whether the word is a number without a sign. -/
def isUnsignedNumber (word : List Char) : Bool :=
  ((afterInteger word).bind afterFraction).any isExponent

def isNumber : List Char → Bool
  | '-' :: rest => isUnsignedNumber rest
  | word => isUnsignedNumber word

/-! ## Reading -/

def isBlank (c : Char) : Bool := c == ' ' || c == '\n' || c == '\r' || c == '\t'

def punctuation? : Char → Option Token
  | '[' => some .openArr
  | ']' => some .closeArr
  | '\x7b' => some .openObj
  | '\x7d' => some .closeObj
  | ':' => some .colon
  | ',' => some .comma
  | _ => none

def isWordChar (c : Char) : Bool := !isBlank c && c != '"' && (punctuation? c).isNone

/-- The token that a word stands for. -/
def word? (word : List Char) : Option Token :=
  if word = ['n', 'u', 'l', 'l'] then some .null
  else if word = ['t', 'r', 'u', 'e'] then some (.bool true)
  else if word = ['f', 'a', 'l', 's', 'e'] then some (.bool false)
  else if isNumber word then some .num
  else none

/-- The tokens of a text. -/
def lex : List Char → Option (List Token)
  | [] => some []
  | c :: rest =>
    if isBlank c then lex rest
    else if c = '"' then
      match _h : scanString rest with
      | none => none
      | some (units, after) =>
        (Token.str ((joinUnits units).map String.ofList) :: ·) <$> lex after
    else
      match punctuation? c with
      | some token => (token :: ·) <$> lex rest
      | none => do
        let token ← word? (c :: rest.takeWhile isWordChar)
        (token :: ·) <$> lex (rest.dropWhile isWordChar)
termination_by s => s.length
decreasing_by
  all_goals simp only [List.length_cons]
  · omega
  · have := length_of_scanString _h
    omega
  · omega
  · have := (List.dropWhile_suffix (l := rest) isWordChar).length_le
    omega

end DotModel.Json
