import DotModel.Proofs.Document.Quoting
import Mathlib.Data.Set.Function

/-!
# What stands between the quotes

A character is escaped if an odd number of backslashes stands right before it, since each of them
escapes the next one.  Between the quotes stands the text with a backslash more before each quote
that is not escaped, and one at the end if the text ends in a backslash that escapes what follows.
The quoting counts no backslashes; it only remembers whether the next character is escaped.

A text without backslashes can be read off its quoted form.  With backslashes it cannot, since a
quote that is escaped already stays as it is.
-/

namespace DotModel.Literal

variable {text before : List Char} {c : Char}

/-! ## Escaped characters -/

/-- Whether what follows the text is escaped: the number of backslashes at its end is odd. -/
def EscapesNext (before : List Char) : Prop :=
  (before.reverse.takeWhile (· = '\\')).length % 2 = 1

instance (before : List Char) : Decidable (EscapesNext before) :=
  inferInstanceAs (Decidable (_ = _))

theorem escapesNext_append_singleton :
    EscapesNext (before ++ [c]) ↔ c = '\\' ∧ ¬EscapesNext before := by
  rw [EscapesNext, EscapesNext, List.reverse_append, List.reverse_singleton, List.singleton_append,
    List.takeWhile_cons]
  by_cases hc : c = '\\'
  · rw [if_pos (decide_eq_true hc), List.length_cons]
    simp only [hc, true_and]
    omega
  · simp [hc]

/-! ## Between the quotes -/

/-- A character as it is written after the text `before`. -/
def escapeAfter (before : List Char) (c : Char) : List Char :=
  if c = '"' ∧ ¬EscapesNext before then ['\\', c] else [c]

/-- A text as it is written after the text `before`: each character after all that stands before
it. -/
def escapeQuotes (before text : List Char) : List Char :=
  text.zipIdx.flatMap fun e => escapeAfter (before ++ text.take e.2) e.1

/-- The text with a backslash more before each quote that is not escaped, and one at the end if what
follows would be escaped. -/
def escapedForm (text : List Char) : List Char :=
  escapeQuotes [] text ++ if EscapesNext text then ['\\'] else []

theorem escapeQuotes_cons (before : List Char) (c : Char) (rest : List Char) :
    escapeQuotes before (c :: rest) = escapeAfter before c ++ escapeQuotes (before ++ [c]) rest := by
  rw [escapeQuotes, escapeQuotes, List.zipIdx_cons, List.flatMap_cons, List.take_zero,
    List.append_nil, List.zipIdx_succ, List.flatMap_map]
  simp only [List.take_succ_cons, List.append_assoc, List.singleton_append]

theorem quoteBody_cons (escaped : Bool) (c : Char) (rest : List Char) :
    quoteBody escaped (c :: rest) =
      (if c = '"' ∧ escaped = false then ['\\', c] else [c]) ++
        quoteBody (decide (c = '\\') && !escaped) rest := by
  cases escaped with
  | true => simp [quoteBody]
  | false =>
      by_cases hquote : c = '"'
      · subst hquote
        rfl
      by_cases hslash : c = '\\'
      · subst hslash
        rfl
      · rw [quoteBody]
        · simp [hquote, hslash]
        · exact hquote
        · exact hslash

/-- The induction takes the text apart from the front, so what stands before it is kept. -/
theorem quoteBody_eq_append (before text : List Char) :
    quoteBody (decide (EscapesNext before)) text =
      escapeQuotes before text ++ if EscapesNext (before ++ text) then ['\\'] else [] := by
  induction text generalizing before with
  | nil => by_cases h : EscapesNext before <;> simp [h, quoteBody, escapeQuotes]
  | cons c rest ih =>
      have hnext : (decide (c = '\\') && !decide (EscapesNext before)) =
          decide (EscapesNext (before ++ [c])) := by
        rw [Bool.eq_iff_iff]
        simp [escapesNext_append_singleton]
      have hpiece : (if c = '"' ∧ decide (EscapesNext before) = false then ['\\', c] else [c]) =
          escapeAfter before c := by
        simp only [escapeAfter, decide_eq_false_iff_not]
      rw [quoteBody_cons, hnext, hpiece, ih, escapeQuotes_cons, List.append_assoc,
        List.append_assoc, List.singleton_append]

theorem quoteBody_eq_escapedForm (text : List Char) : quoteBody false text = escapedForm text :=
  quoteBody_eq_append [] text

/-- The text with each pair of a backslash and a quote replaced by the quote alone. -/
def unescapeQuotes : List Char → List Char
  | '\\' :: '"' :: rest => '"' :: unescapeQuotes rest
  | c :: rest => c :: unescapeQuotes rest
  | [] => []

theorem unescapeQuotes_quoteBody (h : '\\' ∉ text) :
    unescapeQuotes (quoteBody false text) = text := by
  induction text with
  | nil => rfl
  | cons c rest ih =>
      rw [List.mem_cons, not_or] at h
      have hslash : c ≠ '\\' := Ne.symm h.1
      rw [quoteBody_cons, decide_eq_false hslash, Bool.false_and]
      by_cases hquote : c = '"'
      · subst hquote
        exact congrArg ('"' :: ·) (ih h.2)
      · rw [if_neg fun hc => hquote hc.1, List.singleton_append, unescapeQuotes, ih h.2]
        exact fun _ hc => absurd hc hslash

/-! ## Quoted texts -/

theorem quote_of_isSafe (h : isSafe text = true) : quote text = text := if_pos h

theorem quote_of_not_isSafe (h : isSafe text = false) : quote text = enquote text :=
  if_neg (by rw [h]; exact Bool.false_ne_true)

theorem isSafe_quote (text : List Char) : isSafe (quote text) = true := by
  cases hsafe : isSafe text with
  | true => rw [quote_of_isSafe hsafe, hsafe]
  | false =>
      rw [quote_of_not_isSafe hsafe, isSafe, isKeyword_enquote, isQuoted_enquote]
      simp

/-- What the quoted form of a text is. -/
structure IsQuotedForm (text quoted : List Char) : Prop where
  /-- It is safe, and so a keyword in no case, -/
  safe : isSafe quoted = true
  notKeyword : isKeyword quoted = false
  /-- nothing is left to quote in it, -/
  again : quote quoted = quoted
  /-- and it is the text itself if that is safe already. -/
  same_iff : quoted = text ↔ isSafe text = true
  /-- Otherwise it is one quoted string. -/
  oneString : isSafe text = false → isQuoted quoted = true
  inside : isSafe text = false → quoted = '"' :: (escapedForm text ++ ['"'])
  /-- Without backslashes the text can be read off it. -/
  readBack : isSafe text = false → '\\' ∉ text → unescapeQuotes (escapedForm text) = text

theorem isQuotedForm_quote (text : List Char) : IsQuotedForm text (quote text) where
  safe := isSafe_quote text
  notKeyword := isKeyword_quote text
  again := quote_of_isSafe (isSafe_quote text)
  same_iff := by
    constructor
    · intro hsame
      rw [← hsame]
      exact isSafe_quote text
    · exact quote_of_isSafe
  oneString hneeds := by
    rw [quote_of_not_isSafe hneeds]
    exact isQuoted_enquote text
  inside hneeds := by rw [quote_of_not_isSafe hneeds, enquote, quoteBody_eq_escapedForm]
  readBack _ hslash := by rw [← quoteBody_eq_escapedForm, unescapeQuotes_quoteBody hslash]

/-- The quoted form of a text is one safe literal, and different texts that are not safe and have no
backslashes have different ones. -/
theorem quote_is_one_literal :
    (∀ text, IsQuotedForm text (quote text)) ∧
      Set.InjOn quote {text | isSafe text = false ∧ '\\' ∉ text} := by
  refine ⟨isQuotedForm_quote, ?_⟩
  rintro text ⟨hneeds, hslash⟩ text' ⟨hneeds', hslash'⟩ heq
  have hread := (isQuotedForm_quote text).readBack hneeds hslash
  have hread' := (isQuotedForm_quote text').readBack hneeds' hslash'
  rw [(isQuotedForm_quote text).inside hneeds, (isQuotedForm_quote text').inside hneeds',
    List.cons_inj_right, List.append_left_inj] at heq
  rw [← hread, heq, hread']

/-- The first quote gets a backslash, the second one has it, and the backslash at the end is
doubled. -/
theorem twoQuotes_quote :
    isSafe ['"', '\\', '"', '\\'] = false ∧
      quote ['"', '\\', '"', '\\'] = ['"', '\\', '"', '\\', '"', '\\', '\\', '"'] ∧
      unescapeQuotes (escapedForm ['a', '"']) = ['a', '"'] := by
  have hneeds : isSafe ['"', '\\', '"', '\\'] = false := by decide
  have hinside := (quote_is_one_literal.1 ['"', '\\', '"', '\\']).inside hneeds
  have hread := (quote_is_one_literal.1 ['a', '"']).readBack (by decide) (by decide)
  exact ⟨hneeds, hinside.trans (by decide), hread⟩

example : quote ['"'] = quote ['\\', '"'] := by decide

end DotModel.Literal
