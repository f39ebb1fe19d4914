import DotModel.Proofs.Document.Lexing

/-!
# A quoted text is one token

Whatever the text, its quoted form is read as a single identifier.  A safe text has one of four
forms: words and numerals are read as bare words, and the two kinds of strings end for the reader
where they end for the recogniser.  Any other text is enquoted, and what stands between the quotes
then closes at the last quote only.
-/

namespace DotModel.Literal

open Token

variable {escaped : Bool} {inner : Nat} {text rest : List Char} {c : Char}

/-! ## Strings -/

theorem scanQuoted_of_closesQuote (h : closesQuote escaped text = true) :
    scanQuoted escaped (text ++ rest) = some (text, rest) := by
  fun_induction closesQuote escaped text with
  | case1 => cases h
  | case2 c tail ih => simp [scanQuoted, ih h, push]
  | case3 tail =>
      rw [List.isEmpty_iff] at h
      simp [scanQuoted, h]
  | case4 tail ih => simp [scanQuoted, ih h, push]
  | case5 c tail hquote hslash ih =>
      rw [List.cons_append, scanQuoted, ih h]
      · rfl
      · exact hquote
      · exact hslash

theorem scanHtml_of_closesAngle (h : closesAngle inner text = true) :
    scanHtml inner (text ++ rest) = some (text, rest) := by
  fun_induction closesAngle inner text with
  | case1 => cases h
  | case2 inner tail ih => simp [scanHtml, ih h, push]
  | case3 tail =>
      rw [List.isEmpty_iff] at h
      simp [scanHtml, h]
  | case4 tail inner ih => simp [scanHtml, ih h, push]
  | case5 inner c tail hopen hzero hsucc ih =>
      rw [List.cons_append, scanHtml, ih h]
      · rfl
      · exact hopen
      · exact hzero
      · exact hsucc

/-- The quoting waits for a character exactly where the recogniser of quoted strings does. -/
theorem closesQuote_quoteBody (escaped : Bool) (text : List Char) :
    closesQuote escaped (quoteBody escaped text ++ ['"']) = true := by
  fun_induction quoteBody escaped text with
  | case1 => rfl
  | case2 => rfl
  | case3 rest ih => exact ih
  | case4 rest ih => exact ih
  | case5 c rest hquote hslash ih =>
      rw [List.cons_append, closesQuote, ih]
      · exact hquote
      · exact hslash
  | case6 c rest ih => exact ih

theorem isQuoted_enquote (text : List Char) : isQuoted (enquote text) = true :=
  closesQuote_quoteBody false text

/-! ## Bare forms -/

theorem isBareChar_of_isWordStart (h : isWordStart c = true) : isBareChar c = true := by
  simp only [isWordStart, Bool.or_eq_true] at h
  rcases h with (h | h) | h <;> simp [isBareChar, Char.isAlphanum, h]

theorem isBareChar_of_isDigit (h : c.isDigit = true) : isBareChar c = true := by
  simp [isBareChar, Char.isAlphanum, h]

theorem isBareChar_of_isWordPart (h : isWordPart c = true) : isBareChar c = true := by
  rw [isWordPart, Bool.or_eq_true] at h
  exact h.elim isBareChar_of_isWordStart isBareChar_of_isDigit

theorem forall_isBareChar_of_isPlain (h : isPlain text = true) :
    ∀ d ∈ text, isBareChar d = true := by
  cases text with
  | nil => cases h
  | cons c word =>
      rw [isPlain, Bool.and_eq_true, List.all_eq_true] at h
      rw [List.forall_mem_cons]
      exact ⟨isBareChar_of_isWordStart h.1, fun d hd => isBareChar_of_isWordPart (h.2 d hd)⟩

theorem forall_isBareChar_of_isUnsignedNumeral (h : isUnsignedNumeral text = true) :
    ∀ d ∈ text, isBareChar d = true := by
  simp only [isUnsignedNumeral, Bool.and_eq_true, List.all_eq_true, Bool.or_eq_true,
    beq_iff_eq] at h
  intro d hd
  rcases h.1.2 d hd with hdigit | rfl
  · exact isBareChar_of_isDigit hdigit
  · rfl

theorem ne_nil_of_isUnsignedNumeral (h : isUnsignedNumeral text = true) : text ≠ [] := by
  rintro rfl
  cases h

/-- A numeral is a bare word, perhaps behind a minus. -/
theorem exists_word_of_isNumeral (h : isNumeral text = true) :
    ∃ word, (text = word ∨ text = '-' :: word) ∧ word ≠ [] ∧ ∀ d ∈ word, isBareChar d = true := by
  unfold isNumeral at h
  split at h
  · rename_i word
    exact ⟨word, Or.inr rfl, ne_nil_of_isUnsignedNumeral h,
      forall_isBareChar_of_isUnsignedNumeral h⟩
  · exact ⟨text, Or.inl rfl, ne_nil_of_isUnsignedNumeral h,
      forall_isBareChar_of_isUnsignedNumeral h⟩

/-! ## One token -/

theorem ofWord_eq_ident (h : isKeyword text = false) : ofWord text = .ident text := by
  simp [ofWord, h]

theorem lex_isNumeral (h : isNumeral text = true) (hrest : EndsWord rest) :
    lex (text ++ rest) = (ofWord text :: ·) <$> lex rest := by
  obtain ⟨word, rfl | rfl, hne, hbare⟩ := exists_word_of_isNumeral h
  · exact lex_bare hne hbare hrest
  · cases word with
    | nil => exact absurd rfl hne
    | cons c word =>
        rw [List.forall_mem_cons] at hbare
        exact lex_minus_word hbare.1 hbare.2 hrest

theorem lex_isQuoted (h : isQuoted text = true) :
    lex (text ++ rest) = (.ident text :: ·) <$> lex rest := by
  unfold isQuoted at h
  split at h
  · exact lex_quoted (scanQuoted_of_closesQuote h)
  · cases h

theorem lex_isHtml (h : isHtml text = true) :
    lex (text ++ rest) = (.ident text :: ·) <$> lex rest := by
  unfold isHtml at h
  split at h
  · exact lex_html (scanHtml_of_closesAngle h)
  · cases h

theorem lex_isSafe (h : isSafe text = true) (hrest : EndsWord rest) :
    lex (text ++ rest) = (.ident text :: ·) <$> lex rest := by
  rw [isSafe, Bool.and_eq_true, Bool.not_eq_true'] at h
  obtain ⟨hkeyword, hform⟩ := h
  simp only [Bool.or_eq_true] at hform
  rcases hform with ((hplain | hnumeral) | hquoted) | hhtml
  · have hne : text ≠ [] := by
      rintro rfl
      cases hplain
    rw [lex_bare hne (forall_isBareChar_of_isPlain hplain) hrest, ofWord_eq_ident hkeyword]
  · rw [lex_isNumeral hnumeral hrest, ofWord_eq_ident hkeyword]
  · exact lex_isQuoted hquoted
  · exact lex_isHtml hhtml

/-- The quoted form of a text is one token, up to where no bare word goes on. -/
theorem lex_quote (text : List Char) (hrest : EndsWord rest) :
    lex (quote text ++ rest) = (.quoted text :: ·) <$> lex rest := by
  rw [Token.quoted, quote]
  split
  · rename_i hsafe
    exact lex_isSafe hsafe hrest
  · exact lex_isQuoted (isQuoted_enquote text)

theorem spellsWord_quote (text : List Char) :
    SpellsWord (String.ofList (quote text)) [.quoted text] := by
  intro rest hrest
  rw [String.toList_ofList]
  exact lex_quote text hrest

/-! ## No keyword -/

theorem isKeyword_enquote (text : List Char) : isKeyword (enquote text) = false := by
  have hhead : ∀ word ∈ keywords, word.head? ≠ some '"' := by decide
  rw [← Bool.not_eq_true, isKeyword, List.contains_iff_mem]
  exact fun hmem => hhead _ hmem rfl

/-- The quoted form of a text is a keyword in no case. -/
theorem isKeyword_quote (text : List Char) : isKeyword (quote text) = false := by
  rw [quote]
  split
  · rename_i hsafe
    rw [isSafe, Bool.and_eq_true, Bool.not_eq_true'] at hsafe
    exact hsafe.1
  · exact isKeyword_enquote text

end DotModel.Literal
