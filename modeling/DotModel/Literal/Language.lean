import DotModel.Literal.Form
import Mathlib.Computability.Language

/-!
# The language of identifiers

Which texts DOT takes for an identifier, form by form, said by regular expressions and, for HTML
strings, whose brackets nest, by a grammar.
-/

namespace DotModel.Literal

open Computability

/-- The texts of one character of a class. -/
def single (p : Char → Prop) : Language Char := {text | ∃ c, p c ∧ text = [c]}

/-- `[0-9]` -/
def digit : Language Char := single fun c => '0' ≤ c ∧ c ≤ '9'

/-- `[A-Za-z_]`, and every character outside ASCII. -/
def wordStart : Language Char :=
  single fun c => ('A' ≤ c ∧ c ≤ 'Z') ∨ ('a' ≤ c ∧ c ≤ 'z') ∨ c = '_' ∨ 128 ≤ c.toNat

/-- A start of a word, and then any number of such starts and digits. -/
def words : Language Char := wordStart * (wordStart + digit)∗

/-- `-?(\.[0-9]+ | [0-9]+(\.[0-9]*)?)` -/
def numerals : Language Char :=
  (1 + {['-']}) * ({['.']} * (digit * digit∗) + digit * digit∗ * (1 + {['.']} * digit∗))

/-- What a quoted string is made of: a character other than a quote and a backslash, or any
character behind a backslash. -/
def quotedPieces : Language Char :=
  single (fun c => c ≠ '"' ∧ c ≠ '\\') + {['\\']} * single fun _ => True

def quotedStrings : Language Char := {['"']} * quotedPieces∗ * {['"']}

/-- The phrases of HTML strings. -/
inductive HtmlPhrase where
  /-- A string with its brackets. -/
  | string
  /-- What stands between the brackets. -/
  | body

/-- `H := '<' (any character except '<' and '>' | H)* '>'` -/
inductive HtmlDerives : HtmlPhrase → List Char → Prop where
  | string {body : List Char} :
      HtmlDerives .body body → HtmlDerives .string ('<' :: (body ++ ['>']))
  | nil : HtmlDerives .body []
  | char {c : Char} {rest : List Char} :
      c ≠ '<' → c ≠ '>' → HtmlDerives .body rest → HtmlDerives .body (c :: rest)
  | nested {inner rest : List Char} :
      HtmlDerives .string inner → HtmlDerives .body rest → HtmlDerives .body (inner ++ rest)

def htmlStrings : Language Char := {text | HtmlDerives .string text}

/-- The forms of an identifier. -/
inductive Form where
  | word
  | numeral
  | quoted
  | html
  deriving DecidableEq

namespace Form

/-- The texts of a form. -/
def language : Form → Language Char
  | word => words
  | numeral => numerals
  | quoted => quotedStrings
  | html => htmlStrings

/-- Whether the text is recognised as one of a form. -/
def recognises : Form → List Char → Bool
  | word => isPlain
  | numeral => isNumeral
  | quoted => isQuoted
  | html => isHtml

end Form

/-- The text is the word with each letter in either case. -/
def IsCasingOf (text word : List Char) : Prop :=
  List.Forall₂ (fun c letter => c = letter ∨ c = letter.toUpper) text word

end DotModel.Literal
