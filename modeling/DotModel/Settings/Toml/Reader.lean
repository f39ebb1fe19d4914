import DotModel.Settings.Toml.Text
import DotModel.Settings.Toml.Tree

/-!
# Reading TOML

`read?` gives the entries of the top-level table of a text, or nothing if the text is not TOML 1.0.
Arrays and inline tables may be nested up to `nestingLimit`, and a dotted key may have that many
parts.  Each step of the readers takes one unit of their supply; twice the length of the text is
enough, since of two steps at least one takes a character.
-/

namespace DotModel.Settings.Toml

open Text

/-! ## Between values -/

/-- The text without blanks at its start. -/
def dropBlanks (text : List Char) : List Char := text.dropWhile isBlank

/-- What follows the end of a line, after blanks and perhaps a comment. -/
def afterLine? (text : List Char) : Option (List Char) :=
  let text := dropBlanks text
  let text :=
    match text with
    | '#' :: rest => rest.dropWhile isTextChar
    | text => text
  match text with
  | [] => some []
  | '\n' :: rest => some rest
  | '\r' :: '\n' :: rest => some rest
  | _ => none

/-- The text without blanks, line ends and comments at its start. -/
def dropFiller (inComment : Bool) : List Char → Option (List Char)
  | [] => some []
  | '\n' :: rest => dropFiller false rest
  | '\r' :: '\n' :: rest => dropFiller false rest
  | c :: rest =>
    if inComment then
      if isTextChar c then dropFiller true rest else none
    else if isBlank c then dropFiller false rest
    else if c = '#' then dropFiller true rest
    else some (c :: rest)

/-! ## Keys -/

def isKeyChar (c : Char) : Bool := c.isAlphanum || c == '_' || c == '-'

/-- A key without dots: a bare word or a string on one line. -/
def simpleKey? : List Char → Option (String × List Char)
  | '"' :: rest => (scanQuoted rest).map fun r => (String.ofList r.1, r.2)
  | '\'' :: rest => (scanLiteral rest).map fun r => (String.ofList r.1, r.2)
  | text =>
    match text.span isKeyChar with
    | ([], _) => none
    | (word, rest) => some (String.ofList word, rest)

/-- How many arrays and inline tables may lie one inside the other, and how many parts a dotted key
may have. -/
def nestingLimit : Nat := 79

/-- A dotted key of at most `room` parts: the keys before the last one, and the last one. -/
def keyWithin? : (room : Nat) → List Char → Option ((List String × String) × List Char)
  | 0, _ => none
  | room + 1, text => do
    let (key, rest) ← simpleKey? text
    match dropBlanks rest with
    | '.' :: rest => do
      let ((path, last), rest) ← keyWithin? room (dropBlanks rest)
      some ((key :: path, last), rest)
    | rest => some (([], key), rest)

/-- A dotted key: the keys before the last one, and the last one. -/
def key? (text : List Char) : Option ((List String × String) × List Char) :=
  keyWithin? nestingLimit text

/-! ## Values -/

mutual

/-- A value in which at most `room` arrays and inline tables lie one inside the other. -/
def value? : (supply room : Nat) → List Char → Option (Value × List Char)
  | 0, _, _ => none
  | supply + 1, room, text =>
    match text, room with
    | '[' :: _, 0 => none
    | '\x7b' :: _, 0 => none
    | '[' :: rest, room + 1 => items? supply room [] rest
    | '\x7b' :: rest, room + 1 =>
      match dropBlanks rest with
      | '\x7d' :: rest => some (.table [], rest)
      | rest => pairs? supply room [] rest
    | text, _ =>
      match string? text with
      | some (chars, rest) => some (.text (String.ofList chars), rest)
      | none => scalar? text

/-- The items of an array after those in `done`, last ones first. -/
def items? : (supply room : Nat) → (done : List Value) → List Char → Option (Value × List Char)
  | 0, _, _, _ => none
  | supply + 1, room, done, text => do
    match ← dropFiller false text with
    | ']' :: rest => some (.list done.reverse, rest)
    | text => do
      let (item, rest) ← value? supply room text
      match ← dropFiller false rest with
      | ',' :: rest => items? supply room (item :: done) rest
      | ']' :: rest => some (.list (item :: done).reverse, rest)
      | _ => none

/-- The pairs of an inline table after the entries in `done`. -/
def pairs? : (supply room : Nat) → (done : Entries) → List Char → Option (Value × List Char)
  | 0, _, _, _ => none
  | supply + 1, room, done, text => do
    let ((path, key), rest) ← key? text
    match dropBlanks rest with
    | '=' :: rest => do
      let (value, rest) ← value? supply room (dropBlanks rest)
      let (_, done) ← Entries.assign path key value .header done
      match dropBlanks rest with
      | ',' :: rest => pairs? supply room done (dropBlanks rest)
      | '\x7d' :: rest => some (.table (Entries.toValues done), rest)
      | _ => none
    | _ => none

end

/-! ## Lines -/

/-- A header in double brackets, after the brackets: opens a table of an array of tables. -/
def itemHeader? (root : Entries) (text : List Char) :
    Option ((List String × Entries) × List Char) := do
  let ((path, key), rest) ← key? (dropBlanks text)
  match dropBlanks rest with
  | ']' :: ']' :: rest => do
    let (_, root) ← Entries.within .path (Entries.openItem key) path .header root
    some ((path ++ [key], root), rest)
  | _ => none

/-- A header in single brackets, after the bracket: opens a table. -/
def tableHeader? (root : Entries) (text : List Char) :
    Option ((List String × Entries) × List Char) := do
  let ((path, key), rest) ← key? (dropBlanks text)
  match dropBlanks rest with
  | ']' :: rest => do
    let (_, root) ← Entries.within .path (Entries.openTable key) path .header root
    some ((path ++ [key], root), rest)
  | _ => none

/-- A key with its value, added to the table of the last header. -/
def pair? (supply : Nat) (current : List String) (root : Entries) (text : List Char) :
    Option ((List String × Entries) × List Char) := do
  let ((path, key), rest) ← key? text
  match dropBlanks rest with
  | '=' :: rest => do
    let (value, rest) ← value? supply nestingLimit (dropBlanks rest)
    let (_, root) ← Entries.within .path (Entries.assign path key value) current .header root
    some ((current, root), rest)
  | _ => none

/-- The lines of a text.  `current` is the path of the last header, `root` what was read so far. -/
def lines? : (supply : Nat) → (current : List String) → (root : Entries) → List Char →
    Option Entries
  | 0, _, _, _ => none
  | supply + 1, current, root, text => do
    let text := dropBlanks text
    let ((current, root), rest) ←
      match text with
      | [] | '#' :: _ | '\n' :: _ | '\r' :: _ => some ((current, root), text)
      | '[' :: '[' :: rest => itemHeader? root rest
      | '[' :: rest => tableHeader? root rest
      | text => pair? supply current root text
    match ← afterLine? rest with
    | [] => some root
    | rest => lines? supply current root rest

/-- The entries of the top-level table of a text, which may begin with a byte order mark. -/
def read? (text : String) : Option (List (String × Value)) :=
  let chars :=
    match text.toList with
    | '\ufeff' :: rest => rest
    | chars => chars
  Entries.toValues <$> lines? (2 * chars.length + 2) [] [] chars

end DotModel.Settings.Toml
