import DotModel.Document.Lexer
import DotModel.Proofs.Text.Runs

/-!
# How texts are read

A text *spells* tokens if they are what the reader finds in it, whatever follows.  A bare word goes
on as long as it can, so a text that ends in one spells its tokens only where no character of bare
words follows.  Texts of both kinds are put together piece by piece.
-/

namespace DotModel.Token

variable {c : Char} {text word rest : List Char} {token : Token}

/-! ## Single tokens -/

theorem lex_blank (hc : isBlank c = true) : lex (c :: rest) = lex rest := by
  have hminus : c ≠ '-' := by
    rintro rfl
    cases hc
  rw [lex, if_pos hc]
  · exact fun _ h => absurd h hminus
  · exact fun _ h => absurd h hminus

/-- The characters with a token of their own are neither blanks nor the beginning of a string or of
an operator. -/
theorem of_punctuation? (h : punctuation? c = some token) :
    isBlank c = false ∧ c ≠ '"' ∧ c ≠ '<' ∧ c ≠ '-' := by
  unfold punctuation? at h
  split at h
  case h_9 => cases h
  all_goals decide

theorem lex_punctuation (h : punctuation? c = some token) :
    lex (c :: rest) = (token :: ·) <$> lex rest := by
  obtain ⟨hblank, hquote, hangle, hminus⟩ := of_punctuation? h
  rw [lex, hblank, if_neg Bool.false_ne_true, if_neg hquote, if_neg hangle, h]
  · exact fun _ h => absurd h hminus
  · exact fun _ h => absurd h hminus

theorem lex_edgeOp (directed : Bool) :
    lex ('-' :: (if directed then '>' else '-') :: rest) = (.edgeOp directed :: ·) <$> lex rest := by
  cases directed with
  | true => rw [if_pos rfl, lex]
  | false => rw [if_neg Bool.false_ne_true, lex]

theorem lex_quoted {after : List Char} (h : scanQuoted false rest = some (text, after)) :
    lex ('"' :: rest) = (.ident ('"' :: text) :: ·) <$> lex after := by
  rw [lex, if_neg (by decide), if_pos rfl]
  · split
    · rename_i hnone
      rw [h] at hnone
      cases hnone
    · rename_i hsome
      rw [h] at hsome
      cases hsome
      rfl
  · exact fun _ h => absurd h (by decide)
  · exact fun _ h => absurd h (by decide)

theorem lex_html {after : List Char} (h : scanHtml 0 rest = some (text, after)) :
    lex ('<' :: rest) = (.ident ('<' :: text) :: ·) <$> lex after := by
  rw [lex, if_neg (by decide), if_neg (by decide), if_pos rfl]
  · split
    · rename_i hnone
      rw [h] at hnone
      cases hnone
    · rename_i hsome
      rw [h] at hsome
      cases hsome
      rfl
  · exact fun _ h => absurd h (by decide)
  · exact fun _ h => absurd h (by decide)

/-! ## Bare words -/

/-- No bare word goes on at the beginning of this text. -/
def EndsWord (rest : List Char) : Prop := ∀ c ∈ rest.head?, isBareChar c = false

theorem endsWord_nil : EndsWord [] := by simp [EndsWord]

theorem endsWord_cons : EndsWord (c :: rest) ↔ isBareChar c = false := by simp [EndsWord]

theorem EndsWord.append (h : EndsWord text) (hrest : EndsWord rest) : EndsWord (text ++ rest) := by
  cases text with
  | nil => exact hrest
  | cons c text => exact endsWord_cons.mpr (endsWord_cons.mp h)

/-- The characters of bare words have no other use. -/
theorem of_isBareChar (h : isBareChar c = true) :
    isBlank c = false ∧ c ≠ '"' ∧ c ≠ '<' ∧ c ≠ '-' ∧ punctuation? c = none := by
  have hne : ∀ d : Char, isBareChar d = false → c ≠ d := by
    rintro d hd rfl
    rw [h] at hd
    cases hd
  refine ⟨?_, hne '"' (by decide), hne '<' (by decide), hne '-' (by decide), ?_⟩
  · simp [isBlank, hne ' ' (by decide), hne '\t' (by decide), hne '\r' (by decide),
      hne '\n' (by decide)]
  · unfold punctuation?
    split
    case h_9 => rfl
    all_goals exact absurd h (by decide)

theorem lex_word (hc : isBareChar c = true) (hword : ∀ d ∈ word, isBareChar d = true)
    (hrest : EndsWord rest) :
    lex (c :: (word ++ rest)) = (ofWord (c :: word) :: ·) <$> lex rest := by
  obtain ⟨hblank, hquote, hangle, hminus, hpunctuation⟩ := of_isBareChar hc
  rw [lex, hblank, if_neg Bool.false_ne_true, if_neg hquote, if_neg hangle, hpunctuation]
  · simp [Text.takeWhile_run hword hrest, Text.dropWhile_run hword hrest, hc]
  · exact fun _ h => absurd h hminus
  · exact fun _ h => absurd h hminus

theorem lex_bare (hne : word ≠ []) (hword : ∀ d ∈ word, isBareChar d = true)
    (hrest : EndsWord rest) : lex (word ++ rest) = (ofWord word :: ·) <$> lex rest := by
  cases word with
  | nil => exact absurd rfl hne
  | cons c word =>
      rw [List.forall_mem_cons] at hword
      exact lex_word hword.1 hword.2 hrest

/-- A minus belongs to the word behind it. -/
theorem lex_minus_word (hc : isBareChar c = true) (hword : ∀ d ∈ word, isBareChar d = true)
    (hrest : EndsWord rest) :
    lex ('-' :: c :: (word ++ rest)) = (ofWord ('-' :: c :: word) :: ·) <$> lex rest := by
  have hall : ∀ d ∈ c :: word, isBareChar d = true := List.forall_mem_cons.mpr ⟨hc, hword⟩
  have hminus : c ≠ '-' := (of_isBareChar hc).2.2.2.1
  have harrow : c ≠ '>' := by
    rintro rfl
    cases hc
  have hpunctuation : punctuation? '-' = none := rfl
  rw [lex, if_neg (by decide), if_neg (by decide), if_neg (by decide), hpunctuation,
    ← List.cons_append]
  · simp only [Text.takeWhile_run hall hrest, Text.dropWhile_run hall hrest]
    rfl
  · exact fun _ _ h => harrow (List.cons.inj h).1
  · exact fun _ _ h => hminus (List.cons.inj h).1

/-! ## Texts of several tokens -/

/-- Whatever follows, the text is read as these tokens. -/
def Spells (text : String) (tokens : List Token) : Prop :=
  ∀ rest, lex (text.toList ++ rest) = (tokens ++ ·) <$> lex rest

/-- Where no bare word goes on, the text is read as these tokens. -/
def SpellsWord (text : String) (tokens : List Token) : Prop :=
  ∀ rest, EndsWord rest → lex (text.toList ++ rest) = (tokens ++ ·) <$> lex rest

section Append

variable {a b : String} {s t : List Token}

theorem map_append_map (s t : List Token) (tokens : Option (List Token)) :
    (s ++ ·) <$> (t ++ ·) <$> tokens = ((s ++ t) ++ ·) <$> tokens := by
  cases tokens <;> simp

theorem Spells.lex_eq (h : Spells a s) : lex a.toList = some s := by
  have hread := h []
  rw [List.append_nil] at hread
  rw [hread, lex]
  exact congrArg some (List.append_nil s)

theorem Spells.spellsWord (h : Spells a s) : SpellsWord a s := fun rest _ => h rest

theorem nil_append_map (tokens : Option (List Token)) : ([] ++ ·) <$> tokens = tokens := by
  cases tokens <;> rfl

theorem spells_empty : Spells "" [] := fun rest => (nil_append_map (lex rest)).symm

theorem Spells.append (ha : Spells a s) (hb : Spells b t) : Spells (a ++ b) (s ++ t) := by
  intro rest
  rw [String.toList_append, List.append_assoc, ha, hb, map_append_map]

theorem Spells.append_word (ha : Spells a s) (hb : SpellsWord b t) :
    SpellsWord (a ++ b) (s ++ t) := by
  intro rest hrest
  rw [String.toList_append, List.append_assoc, ha, hb rest hrest, map_append_map]

theorem SpellsWord.append_word (ha : SpellsWord a s) (hb : SpellsWord b t)
    (hbreak : EndsWord b.toList) : SpellsWord (a ++ b) (s ++ t) := by
  intro rest hrest
  rw [String.toList_append, List.append_assoc, ha _ (hbreak.append hrest), hb rest hrest,
    map_append_map]

/-- A text may follow a word if its first character ends the word. -/
theorem SpellsWord.append (ha : SpellsWord a s) (hb : Spells b t) {c : Char} {tail : List Char}
    (hhead : b.toList = c :: tail) (hc : isBareChar c = false) : Spells (a ++ b) (s ++ t) := by
  intro rest
  have hbreak : EndsWord (b.toList ++ rest) := by
    rw [hhead, List.cons_append, endsWord_cons]
    exact hc
  rw [String.toList_append, List.append_assoc, ha _ hbreak, hb, map_append_map]

end Append

/-- Blanks spell nothing. -/
theorem spells_blanks {blanks : String} (h : ∀ c ∈ blanks.toList, isBlank c = true) :
    Spells blanks [] := by
  intro rest
  rw [nil_append_map]
  generalize blanks.toList = chars at h
  induction chars with
  | nil => rfl
  | cons c chars ih =>
      rw [List.forall_mem_cons] at h
      rw [List.cons_append, lex_blank h.1, ih h.2]

theorem spells_blank_cons {s : List Token} (hc : isBlank c = true)
    (h : Spells (String.ofList text) s) : Spells (String.ofList (c :: text)) s := by
  intro rest
  have htext := h rest
  rw [String.toList_ofList] at htext ⊢
  rw [List.cons_append, lex_blank hc, htext]

theorem spells_punctuation_cons {s : List Token} (hc : punctuation? c = some token)
    (h : Spells (String.ofList text) s) : Spells (String.ofList (c :: text)) (token :: s) := by
  intro rest
  have htext := h rest
  rw [String.toList_ofList] at htext ⊢
  rw [List.cons_append, lex_punctuation hc, htext]
  exact map_append_map [token] s (lex rest)

theorem spellsWord_of_isBareChar {text : String} (hne : text.toList ≠ [])
    (h : text.toList.all isBareChar = true) : SpellsWord text [ofWord text.toList] :=
  fun _ hrest => lex_bare hne (List.all_eq_true.mp h) hrest

end DotModel.Token
