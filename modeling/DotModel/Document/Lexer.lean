import DotModel.Document.Token

/-!
# Reading DOT tokens

`lex` splits a DOT text into tokens.  Blanks separate tokens and are left out.  A quoted string
ends at the first quote that no backslash escapes, an HTML string at the bracket that closes its
first one, and a bare word goes on as long as it can.
-/

namespace DotModel.Token

/-- The blanks of DOT. -/
def isBlank (c : Char) : Bool := c == ' ' || c == '\t' || c == '\r' || c == '\n'

/-- The characters of bare words. -/
def isBareChar (c : Char) : Bool := c.isAlphanum || c == '_' || c == '.' || 128 ≤ c.toNat

def punctuation? : Char → Option Token
  | '\x7b' => some .openBrace
  | '\x7d' => some .closeBrace
  | '[' => some .openBracket
  | ']' => some .closeBracket
  | '=' => some .equals
  | ';' => some .semicolon
  | ':' => some .colon
  | ',' => some .comma
  | _ => none

/-- A character in front of what was scanned. -/
def push (c : Char) (scanned : Option (List Char × List Char)) : Option (List Char × List Char) :=
  scanned.map fun r => (c :: r.1, r.2)

/-- The rest of a quoted string with its closing quote, and what follows it. -/
def scanQuoted : (escaped : Bool) → List Char → Option (List Char × List Char)
  | _, [] => none
  | true, c :: rest => push c (scanQuoted false rest)
  | false, '"' :: rest => some (['"'], rest)
  | false, '\\' :: rest => push '\\' (scanQuoted true rest)
  | false, c :: rest => push c (scanQuoted false rest)

/-- The rest of an HTML string with its closing bracket, inside of `inner` brackets beside the outer
one, and what follows it. -/
def scanHtml : (inner : Nat) → List Char → Option (List Char × List Char)
  | _, [] => none
  | inner, '<' :: rest => push '<' (scanHtml (inner + 1) rest)
  | 0, '>' :: rest => some (['>'], rest)
  | inner + 1, '>' :: rest => push '>' (scanHtml inner rest)
  | inner, c :: rest => push c (scanHtml inner rest)

theorem append_of_push {c : Char} {scanned : Option (List Char × List Char)}
    {text rest : List Char} (h : push c scanned = some (text, rest)) :
    ∃ tail, text = c :: tail ∧ scanned = some (tail, rest) := by
  cases scanned with
  | none => cases h
  | some r =>
    cases h
    exact ⟨r.1, rfl, rfl⟩

/-- What is scanned of a quoted string and what follows it make up the text. -/
theorem append_of_scanQuoted {escaped : Bool} {s text rest : List Char}
    (h : scanQuoted escaped s = some (text, rest)) : text ++ rest = s := by
  fun_induction scanQuoted escaped s generalizing text with
  | case1 => cases h
  | case2 c tail ih =>
    obtain ⟨t, rfl, ht⟩ := append_of_push h
    simp [ih ht]
  | case3 tail =>
    cases h
    rfl
  | case4 tail ih =>
    obtain ⟨t, rfl, ht⟩ := append_of_push h
    simp [ih ht]
  | case5 c tail _ _ ih =>
    obtain ⟨t, rfl, ht⟩ := append_of_push h
    simp [ih ht]

/-- What is scanned of an HTML string and what follows it make up the text. -/
theorem append_of_scanHtml {inner : Nat} {s text rest : List Char}
    (h : scanHtml inner s = some (text, rest)) : text ++ rest = s := by
  fun_induction scanHtml inner s generalizing text with
  | case1 => cases h
  | case2 inner tail ih =>
    obtain ⟨t, rfl, ht⟩ := append_of_push h
    simp [ih ht]
  | case3 tail =>
    cases h
    rfl
  | case4 tail inner ih =>
    obtain ⟨t, rfl, ht⟩ := append_of_push h
    simp [ih ht]
  | case5 inner c tail _ _ _ ih =>
    obtain ⟨t, rfl, ht⟩ := append_of_push h
    simp [ih ht]

/-- A bare word is a keyword or an identifier. -/
def ofWord (word : List Char) : Token :=
  if Literal.isKeyword word then .keyword word else .ident word

/-- The tokens of a text. -/
def lex : List Char → Option (List Token)
  | [] => some []
  | '-' :: '>' :: rest => (.edgeOp true :: ·) <$> lex rest
  | '-' :: '-' :: rest => (.edgeOp false :: ·) <$> lex rest
  | c :: rest =>
    if isBlank c then lex rest
    else if c = '"' then
      match _h : scanQuoted false rest with
      | none => none
      | some (text, after) => (.ident ('"' :: text) :: ·) <$> lex after
    else if c = '<' then
      match _h : scanHtml 0 rest with
      | none => none
      | some (text, after) => (.ident ('<' :: text) :: ·) <$> lex after
    else
      match punctuation? c with
      | some token => (token :: ·) <$> lex rest
      | none =>
        let word := rest.takeWhile isBareChar
        if isBareChar c || c = '-' && !word.isEmpty then
          (ofWord (c :: word) :: ·) <$> lex (rest.dropWhile isBareChar)
        else none
termination_by s => s.length
decreasing_by
  all_goals simp only [List.length_cons]
  · omega
  · omega
  · omega
  · have := congrArg List.length (append_of_scanQuoted _h)
    rw [List.length_append] at this
    omega
  · have := congrArg List.length (append_of_scanHtml _h)
    rw [List.length_append] at this
    omega
  · omega
  · have := (List.dropWhile_suffix (l := rest) isBareChar).length_le
    omega

end DotModel.Token
