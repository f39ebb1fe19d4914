import DotModel.Literal.Form

/-!
# Quoting

`quote` writes a text as one identifier.  A safe text is written as it is.  Any other is put
between double quotes, where a quote of its own is escaped by a backslash unless one stands before
it already, and a backslash at the end is doubled so that it does not escape the closing quote.
-/

namespace DotModel.Literal

/-- The text between the quotes; `escaped` tells whether a backslash waits for this character. -/
def quoteBody : (escaped : Bool) → List Char → List Char
  | false, [] => []
  | true, [] => ['\\']
  | false, '"' :: rest => '\\' :: '"' :: quoteBody false rest
  | false, '\\' :: rest => '\\' :: quoteBody true rest
  | false, c :: rest => c :: quoteBody false rest
  | true, c :: rest => c :: quoteBody false rest

/-- The text between double quotes. -/
def enquote (text : List Char) : List Char := '"' :: (quoteBody false text ++ ['"'])

/-- The text as one identifier. -/
def quote (text : List Char) : List Char := if isSafe text then text else enquote text

/-- What is added to a name that is the word for a kind of element. -/
def elementSuffix : List Char := ['T', 'Y', 'P', 'E']

/-- The name with the suffix added if it is the word for a kind of element. -/
def disambiguate (name : List Char) : List Char :=
  if isElementWord name then name ++ elementSuffix else name

end DotModel.Literal
