/-!
# Identifier forms

DOT writes an identifier in one of four forms: a plain word, a numeral, a double-quoted string or
an HTML string in angle brackets.  Each form is recognised by one scan over the characters.  A
text of one of these forms that is no keyword is *safe*: it stands for itself.
-/

namespace DotModel.Literal

/-- The words that name a kind of graph element, in lower case. -/
def elementWords : List (List Char) :=
  [['g', 'r', 'a', 'p', 'h'], ['n', 'o', 'd', 'e'], ['e', 'd', 'g', 'e'],
    ['s', 'u', 'b', 'g', 'r', 'a', 'p', 'h'], ['d', 'i', 'g', 'r', 'a', 'p', 'h']]

/-- All keywords of DOT, in lower case. -/
def keywords : List (List Char) := elementWords ++ [['s', 't', 'r', 'i', 'c', 't']]

/-- Whether the text names a kind of element, in whatever ASCII case. -/
def isElementWord (text : List Char) : Bool := elementWords.contains (text.map Char.toLower)

/-- Whether the text is a keyword, in whatever ASCII case. -/
def isKeyword (text : List Char) : Bool := keywords.contains (text.map Char.toLower)

/-- ASCII letters, the underscore and every character outside ASCII begin a plain word. -/
def isWordStart (c : Char) : Bool := c == '_' || c.isAlpha || 128 ≤ c.toNat

/-- Inside a plain word ASCII digits may follow as well. -/
def isWordPart (c : Char) : Bool := isWordStart c || c.isDigit

/-- Whether the text is a plain word. -/
def isPlain : List Char → Bool
  | [] => false
  | c :: rest => isWordStart c && rest.all isWordPart

/-- Whether the text is digits with at most one point among them, and at least one digit. -/
def isUnsignedNumeral (text : List Char) : Bool :=
  text.any Char.isDigit && text.all (fun c => c.isDigit || c == '.') && text.count '.' ≤ 1

/-- Whether the text is a numeral, such as `42`, `-1.5` or `.25`. -/
def isNumeral : List Char → Bool
  | '-' :: rest => isUnsignedNumeral rest
  | text => isUnsignedNumeral text

/-- Whether the text is the rest of a quoted string after its opening quote: the first quote that
no backslash escapes is the last character. -/
def closesQuote : (escaped : Bool) → List Char → Bool
  | _, [] => false
  | true, _ :: rest => closesQuote false rest
  | false, '"' :: rest => rest.isEmpty
  | false, '\\' :: rest => closesQuote true rest
  | false, _ :: rest => closesQuote false rest

/-- Whether the text is one double-quoted string. -/
def isQuoted : List Char → Bool
  | '"' :: rest => closesQuote false rest
  | _ => false

/-- Whether the text is the rest of an HTML string inside its outer bracket and `inner` more: the
bracket that closes the outer one is the last character. -/
def closesAngle : (inner : Nat) → List Char → Bool
  | _, [] => false
  | inner, '<' :: rest => closesAngle (inner + 1) rest
  | 0, '>' :: rest => rest.isEmpty
  | inner + 1, '>' :: rest => closesAngle inner rest
  | inner, _ :: rest => closesAngle inner rest

/-- Whether the text is one HTML string: angle brackets that balance, the outer pair around
everything. -/
def isHtml : List Char → Bool
  | '<' :: rest => closesAngle 0 rest
  | _ => false

/-- Whether the text may be written without quotes around it. -/
def isSafe (text : List Char) : Bool :=
  !isKeyword text && (isPlain text || isNumeral text || isQuoted text || isHtml text)

end DotModel.Literal
