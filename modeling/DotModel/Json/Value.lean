import DotModel.Json.Token

/-!
# JSON values

`tokens` lists the tokens of a value and `parse` builds the value that a list of tokens stands for.
The order of the members of an object is part of its value, and so are repeated keys.
-/

namespace DotModel

/-- A JSON value.  The value of a number is not kept.  `broken` is a string, or an object with a
key, in which an escape names half of a surrogate pair: well formed, but without a value. -/
inductive Json where
  | null
  | bool (value : Bool)
  | num
  | str (text : String)
  | broken
  | arr (items : List Json)
  | obj (members : List (String × Json))
  deriving Inhabited

namespace Json

/-! ## Tokens of a value -/

mutual

/-- The tokens of a value. -/
def tokens : Json → List Token
  | .null => [.null]
  | .bool value => [.bool value]
  | .num => [.num]
  | .str text => [.str (some text)]
  | .broken => [.str none]
  | .arr [] => [.openArr, .closeArr]
  | .arr (item :: items) => .openArr :: (item.tokens ++ itemTokens items)
  | .obj [] => [.openObj, .closeObj]
  | .obj ((key, value) :: members) =>
    .openObj :: .str (some key) :: .colon :: (value.tokens ++ memberTokens members)

/-- The tokens of an array after its first item. -/
def itemTokens : List Json → List Token
  | [] => [.closeArr]
  | item :: items => .comma :: (item.tokens ++ itemTokens items)

/-- The tokens of an object after its first member. -/
def memberTokens : List (String × Json) → List Token
  | [] => [.closeObj]
  | (key, value) :: members =>
    .comma :: .str (some key) :: .colon :: (value.tokens ++ memberTokens members)

end

/-! ## The value of a list of tokens -/

/-- An array or object around the value that is being read, with what came before that value, last
things first. -/
inductive Frame where
  | arr (items : List Json)
  | obj (members : List (Option String × Json)) (key : Option String)

/-- The value of a string literal. -/
def ofText : Option String → Json
  | some text => .str text
  | none => .broken

/-- The object with these members, broken if one of the keys is. -/
def ofMembers (members : List (Option String × Json)) : Json :=
  match members.mapM fun m => m.1.map fun key => (key, m.2) with
  | some members => .obj members
  | none => .broken

mutual

/-- Reads a value inside of the given frames, and goes on with what follows it. -/
def parseValue (frames : List Frame) : List Token → Option Json
  | .null :: rest => parseAfter frames .null rest
  | .bool value :: rest => parseAfter frames (.bool value) rest
  | .num :: rest => parseAfter frames .num rest
  | .str text :: rest => parseAfter frames (ofText text) rest
  | .openArr :: .closeArr :: rest => parseAfter frames (.arr []) rest
  | .openArr :: rest => parseValue (.arr [] :: frames) rest
  | .openObj :: .closeObj :: rest => parseAfter frames (.obj []) rest
  | .openObj :: .str key :: .colon :: rest => parseValue (.obj [] key :: frames) rest
  | _ => none

/-- Goes on after a value: with the next item or member, or with the end of what surrounds it. -/
def parseAfter : List Frame → Json → List Token → Option Json
  | [], value, [] => some value
  | .arr items :: frames, value, .comma :: rest => parseValue (.arr (value :: items) :: frames) rest
  | .arr items :: frames, value, .closeArr :: rest =>
    parseAfter frames (.arr (value :: items).reverse) rest
  | .obj members key :: frames, value, .comma :: .str next :: .colon :: rest =>
    parseValue (.obj ((key, value) :: members) next :: frames) rest
  | .obj members key :: frames, value, .closeObj :: rest =>
    parseAfter frames (ofMembers ((key, value) :: members).reverse) rest
  | _, _, _ => none

end

/-- The value that the tokens stand for. -/
def parse (ts : List Token) : Option Json := parseValue [] ts

/-- The value of a JSON text. -/
def ofText? (text : String) : Option Json := lex text.toList >>= parse

/-! ## Layout -/

/-- The text without any blanks. -/
def compact (json : Json) : String := String.ofList (json.tokens.flatMap Token.text)

/-- A new line of the given level. -/
def newline (level : Nat) : List Char := '\n' :: List.replicate (2 * level) ' '

/-- The tokens with every item and member on a line of its own, two blanks deeper than what it
belongs to. -/
def layout (level : Nat) : List Token → List Char
  | [] => []
  | .openArr :: .closeArr :: rest => '[' :: ']' :: layout level rest
  | .openObj :: .closeObj :: rest => '\x7b' :: '\x7d' :: layout level rest
  | .openArr :: rest => '[' :: (newline (level + 1) ++ layout (level + 1) rest)
  | .openObj :: rest => '\x7b' :: (newline (level + 1) ++ layout (level + 1) rest)
  | .closeArr :: rest => newline (level - 1) ++ ']' :: layout (level - 1) rest
  | .closeObj :: rest => newline (level - 1) ++ '\x7d' :: layout (level - 1) rest
  | .comma :: rest => ',' :: (newline level ++ layout level rest)
  | .colon :: rest => ':' :: ' ' :: layout level rest
  | token :: rest => token.text ++ layout level rest

/-- The text with one item or member a line. -/
def pretty (json : Json) : String := String.ofList (layout 0 json.tokens)

/-! ## Nesting -/

mutual

/-- How many arrays and objects lie one inside the other. -/
def depth : Json → Nat
  | .null | .bool _ | .num | .str _ | .broken => 0
  | .arr items => 1 + itemsDepth items
  | .obj members => 1 + membersDepth members

/-- The depth of the deepest item. -/
def itemsDepth : List Json → Nat
  | [] => 0
  | item :: items => max item.depth (itemsDepth items)

/-- The depth of the deepest member. -/
def membersDepth : List (String × Json) → Nat
  | [] => 0
  | (_, value) :: members => max value.depth (membersDepth members)

end

/-! ## Parts of a value -/

def text? : Json → Option String
  | .str text => some text
  | _ => none

def bool? : Json → Option Bool
  | .bool value => some value
  | _ => none

/-- The items of an array, each read by `read`. -/
def list? {α : Type} (read : Json → Option α) : Json → Option (List α)
  | .arr items => items.mapM read
  | _ => none

/-- The members of an object, each value read by `read`. -/
def members? {α : Type} (read : Json → Option α) : Json → Option (List (String × α))
  | .obj members => members.mapM fun m => (read m.2).map fun value => (m.1, value)
  | _ => none

/-- The values of the named fields, in the order of the names.  In an object no field may occur
twice, and other members do not matter.  An array gives the fields by position and may end early. -/
def fields? (names : List String) : Json → Option (List (Option Json))
  | .obj members =>
    if names.all fun name => members.countP (fun m => m.1 == name) ≤ 1 then
      some (names.map fun name => members.lookup name)
    else
      none
  | .arr items =>
    if items.length ≤ names.length then
      some ((List.range names.length).map fun i => items[i]?)
    else
      none
  | _ => none

/-- The only member of an object. -/
def variant? : Json → Option (String × Json)
  | .obj [member] => some member
  | _ => none

/-- Reads a field that has to be there. -/
def required {α : Type} (read : Json → Option α) (field : Option Json) : Option α := field >>= read

/-- Reads a field that may be left out or be null. -/
def optional {α : Type} (read : Json → Option α) : Option Json → Option (Option α)
  | none => some none
  | some .null => some none
  | some value => some <$> read value

end Json

end DotModel
