import DotModel.Json.ReadBack
import DotModel.Proofs.Text.Runs
import Mathlib.Data.List.Chain
import Mathlib.Tactic.SplitIfs

/-!
# Reading the tokens of a JSON text

A text is a *spacing* of some tokens if it consists of their written forms with blanks between
them, where no word runs into a following one.  Every spacing is read as its tokens.  In the tokens
of a value no word stands directly before another, so both layouts of a value are spacings of its
tokens, and the value is read back from them.
-/

namespace DotModel.Json

open Text (digits? hexDigit)

/-! ## Single tokens -/

section Tokens

variable {c : Char} {token : Token} {word text after : List Char}

theorem lex_blank (hc : isBlank c = true) : lex (c :: text) = lex text := by
  rw [lex, if_pos hc]

/-- Punctuation is neither blank nor the beginning of a string. -/
theorem of_punctuation? (h : punctuation? c = some token) : isBlank c = false ∧ c ≠ '"' := by
  unfold punctuation? at h
  split at h
  case h_7 => cases h
  all_goals decide

theorem lex_punctuation (h : punctuation? c = some token) :
    lex (c :: text) = (token :: ·) <$> lex text := by
  obtain ⟨hblank, hquote⟩ := of_punctuation? h
  rw [lex, hblank, if_neg Bool.false_ne_true, if_neg hquote, h]

theorem lex_string {units : List Nat} (h : scanString text = some (units, after)) :
    lex ('"' :: text) = (.str ((joinUnits units).map String.ofList) :: ·) <$> lex after := by
  rw [lex, if_neg (by decide), if_pos rfl]
  split
  · rename_i hnone
    rw [h] at hnone
    cases hnone
  · rename_i hsome
    rw [h] at hsome
    cases hsome
    rfl

/-- No word goes on at the beginning of this text. -/
def EndsWord (text : List Char) : Prop := ∀ c ∈ text.head?, isWordChar c = false

theorem endsWord_nil : EndsWord [] := by simp [EndsWord]

theorem endsWord_cons : EndsWord (c :: text) ↔ isWordChar c = false := by simp [EndsWord]

/-- A word is read as one token, up to where it ends. -/
theorem lex_word (hword : (c :: word).all isWordChar = true)
    (htoken : word? (c :: word) = some token) (hend : EndsWord text) :
    lex (c :: (word ++ text)) = (token :: ·) <$> lex text := by
  rw [List.all_eq_true, List.forall_mem_cons] at hword
  obtain ⟨hc, hword⟩ := hword
  simp only [isWordChar, Bool.and_eq_true, Bool.not_eq_true', bne_iff_ne, ne_eq,
    Option.isNone_iff_eq_none] at hc
  obtain ⟨⟨hblank, hquote⟩, hpunctuation⟩ := hc
  rw [lex, hblank, if_neg Bool.false_ne_true, if_neg hquote, hpunctuation]
  simp only [Text.takeWhile_run hword hend, Text.dropWhile_run hword hend, htoken]
  rfl

end Tokens

/-! ## Strings -/

section Strings

theorem digits?_hexDigit :
    ∀ n < 32, digits? 16 ['0', '0', hexDigit (n / 16), hexDigit n] = some n := by
  decide

theorem scanString_letter (c : Char) {unit : Nat} (h : unescape? c = some unit)
    (text : List Char) :
    scanString ('\\' :: c :: text) = (scanString text).map fun r => (unit :: r.1, r.2) := by
  have hu : c ≠ 'u' := by
    rintro rfl
    cases h
  rw [scanString, h]
  · cases scanString text <;> rfl
  · exact fun _ _ _ _ _ heq => absurd heq hu

theorem scanString_number {a b c d : Char} {unit : Nat} (h : digits? 16 [a, b, c, d] = some unit)
    (text : List Char) :
    scanString ('\\' :: 'u' :: a :: b :: c :: d :: text) =
      (scanString text).map fun r => (unit :: r.1, r.2) := by
  rw [scanString, h]
  cases scanString text <;> rfl

theorem scanString_plain {c : Char} (hquote : c ≠ '"') (hslash : c ≠ '\\')
    (hcontrol : ¬c.toNat < 32) (text : List Char) :
    scanString (c :: text) = (scanString text).map fun r => (c.toNat :: r.1, r.2) := by
  rw [scanString, if_neg hcontrol]
  · cases scanString text <;> rfl
  · exact hquote
  · exact fun _ _ _ _ _ heq => absurd heq hslash
  · exact fun _ _ heq => absurd heq hslash

/-- What is written for a character is read as its number. -/
theorem scanString_escapeChar (c : Char) (text : List Char) :
    scanString (escapeChar c ++ text) =
      (scanString text).map fun r => (c.toNat :: r.1, r.2) := by
  unfold escapeChar
  split_ifs with hquote hslash hline hreturn htab hback hfeed hcontrol
  · exact scanString_letter '"' (by rw [hquote]; rfl) text
  · exact scanString_letter '\\' (by rw [hslash]; rfl) text
  · exact scanString_letter 'n' (by rw [hline]; rfl) text
  · exact scanString_letter 'r' (by rw [hreturn]; rfl) text
  · exact scanString_letter 't' (by rw [htab]; rfl) text
  · exact scanString_letter 'b' (by rw [hback]; rfl) text
  · exact scanString_letter 'f' (by rw [hfeed]; rfl) text
  · exact scanString_number (digits?_hexDigit c.toNat hcontrol) text
  · exact scanString_plain hquote hslash hcontrol text

theorem scanString_flatMap_escapeChar (s text : List Char) :
    scanString (s.flatMap escapeChar ++ '"' :: text) = some (s.map Char.toNat, text) := by
  induction s with
  | nil => rfl
  | cons c s ih =>
      rw [List.flatMap_cons, List.append_assoc, scanString_escapeChar, ih]
      rfl

/-- No character is half of a surrogate pair. -/
theorem not_isSurrogate (c : Char) :
    isHighSurrogate c.toNat = false ∧ isLowSurrogate c.toNat = false := by
  have hvalid : c.toNat.isValidChar := c.valid
  simp only [isHighSurrogate, isLowSurrogate, Bool.and_eq_false_iff, decide_eq_false_iff_not]
  omega

theorem joinUnits_map_toNat (s : List Char) : joinUnits (s.map Char.toNat) = some s := by
  induction s with
  | nil => rfl
  | cons c s ih =>
      obtain ⟨hhigh, hlow⟩ := not_isSurrogate c
      cases s with
      | nil => simp [joinUnits, hhigh, hlow]
      | cons d s =>
          simp only [List.map_cons] at ih ⊢
          rw [joinUnits, hhigh, hlow, ih]
          simp

theorem lex_quoteString (s text : List Char) :
    lex (quoteString s ++ text) = (.str (some (String.ofList s)) :: ·) <$> lex text := by
  have hscan := scanString_flatMap_escapeChar s text
  rw [quoteString, List.cons_append, List.append_assoc, List.singleton_append, lex_string hscan,
    joinUnits_map_toNat]
  rfl

theorem lex_unpairedLiteral (text : List Char) :
    lex (unpairedLiteral ++ text) = (.str none :: ·) <$> lex text := by
  have hscan : scanString ('\\' :: 'u' :: 'd' :: '8' :: '0' :: '0' :: '"' :: text) =
      some ([0xd800], text) :=
    scanString_number (by decide) _
  exact lex_string hscan

end Strings

/-! ## Spacings -/

/-- Whether the token is written as a word. -/
def Token.isWord : Token → Bool
  | .null | .bool _ | .num => true
  | _ => false

/-- The text consists of the written forms of the tokens, with blanks between them, and no word
runs into a following one. -/
inductive Spacing : List Token → List Char → Prop where
  | nil : Spacing [] []
  | blank {tokens : List Token} {c : Char} {text : List Char} (hc : isBlank c = true)
      (rest : Spacing tokens text) : Spacing tokens (c :: text)
  | token {tokens : List Token} {text : List Char} (token : Token)
      (hend : token.isWord = true → EndsWord text) (rest : Spacing tokens text) :
      Spacing (token :: tokens) (token.text ++ text)

section Spacings

variable {c : Char} {token : Token} {tokens : List Token} {text : List Char}

/-- A token is read from its written form.  Behind a word none may go on. -/
theorem Token.lex_text (token : Token) (hend : token.isWord = true → EndsWord text) :
    lex (token.text ++ text) = (token :: ·) <$> lex text := by
  cases token with
  | openArr | closeArr | openObj | closeObj | colon | comma => exact lex_punctuation rfl
  | null => exact lex_word rfl rfl (hend rfl)
  | num => exact lex_word rfl rfl (hend rfl)
  | bool value =>
      cases value with
      | true => exact lex_word rfl rfl (hend rfl)
      | false => exact lex_word rfl rfl (hend rfl)
  | str s =>
      cases s with
      | none => exact lex_unpairedLiteral text
      | some s =>
          have h := lex_quoteString s.toList text
          rwa [String.ofList_toList] at h

/-- Where a token is written that is no word, no word goes on. -/
theorem Token.endsWord_text (htoken : token.isWord = false) : EndsWord (token.text ++ text) := by
  cases token with
  | null | num | bool _ => cases htoken
  | str s => cases s <;> exact endsWord_cons.mpr rfl
  | openArr | closeArr | openObj | closeObj | colon | comma => exact endsWord_cons.mpr rfl

namespace Spacing

/-- A spacing is read as its tokens. -/
theorem lex_eq (h : Spacing tokens text) : lex text = some tokens := by
  induction h with
  | nil => rw [lex]
  | blank hc _ ih => rw [lex_blank hc, ih]
  | token token hend _ ih =>
      rw [token.lex_text hend, ih]
      rfl

theorem mark (htoken : token.isWord = false) (rest : Spacing tokens text) :
    Spacing (token :: tokens) (token.text ++ text) := by
  refine .token token ?_ rest
  intro hword
  rw [htoken] at hword
  cases hword

theorem blanks {gap : List Char} (hgap : ∀ c ∈ gap, isBlank c = true)
    (rest : Spacing tokens text) : Spacing tokens (gap ++ text) := by
  induction gap with
  | nil => exact rest
  | cons c gap ih =>
      rw [List.forall_mem_cons] at hgap
      exact .blank hgap.1 (ih hgap.2)

theorem newline (level : Nat) (rest : Spacing tokens text) :
    Spacing tokens (Json.newline level ++ text) := by
  refine rest.blanks ?_
  intro c hc
  rcases List.mem_cons.mp hc with rfl | hc
  · rfl
  · rw [List.eq_of_mem_replicate hc]
    rfl

end Spacing

/-! ## Layouts -/

/-- No word stands directly before another one. -/
def Separated (tokens : List Token) : Prop :=
  tokens.IsChain fun a b => a.isWord = true → b.isWord = false

theorem separated_nil : Separated [] := .nil

theorem separated_cons :
    Separated (token :: tokens) ↔
      (token.isWord = true → ∀ next ∈ tokens.head?, next.isWord = false) ∧ Separated tokens := by
  rw [Separated, List.isChain_cons]
  exact and_congr_left' ⟨fun h hw n hn => h n hn hw, fun h n hn hw => h hw n hn⟩

/-- Separated tokens may follow each other without blanks. -/
theorem spacing_flatMap_text (h : Separated tokens) :
    Spacing tokens (tokens.flatMap Token.text) := by
  induction tokens with
  | nil => exact .nil
  | cons token tokens ih =>
      rw [separated_cons] at h
      refine .token token ?_ (ih h.2)
      intro hword
      cases tokens with
      | nil => exact endsWord_nil
      | cons next tokens => exact Token.endsWord_text (h.1 hword next rfl)

theorem endsWord_layout {level : Nat} (h : ∀ next ∈ tokens.head?, next.isWord = false) :
    EndsWord (layout level tokens) := by
  fun_cases layout level tokens
  case case1 => exact endsWord_nil
  case case10 => exact Token.endsWord_text (h _ rfl)
  all_goals exact endsWord_cons.mpr rfl

/-- Separated tokens may stand on lines of their own. -/
theorem spacing_layout (level : Nat) (h : Separated tokens) :
    Spacing tokens (layout level tokens) := by
  fun_induction layout level tokens with
  | case1 => exact .nil
  | case2 level tokens ih =>
      rw [separated_cons, separated_cons] at h
      exact .mark rfl (.mark rfl (ih h.2.2))
  | case3 level tokens ih =>
      rw [separated_cons, separated_cons] at h
      exact .mark rfl (.mark rfl (ih h.2.2))
  | case4 level tokens _ ih =>
      rw [separated_cons] at h
      exact .mark rfl (.newline (level + 1) (ih h.2))
  | case5 level tokens _ ih =>
      rw [separated_cons] at h
      exact .mark rfl (.newline (level + 1) (ih h.2))
  | case6 level tokens ih =>
      rw [separated_cons] at h
      exact .newline (level - 1) (.mark rfl (ih h.2))
  | case7 level tokens ih =>
      rw [separated_cons] at h
      exact .newline (level - 1) (.mark rfl (ih h.2))
  | case8 level tokens ih =>
      rw [separated_cons] at h
      exact .mark rfl (.newline level (ih h.2))
  | case9 level tokens ih =>
      rw [separated_cons] at h
      exact .mark rfl (.blank rfl (ih h.2))
  | case10 level token tokens _ _ _ _ _ _ _ _ ih =>
      rw [separated_cons] at h
      refine .token token ?_ (ih h.2)
      exact fun hword => endsWord_layout (h.1 hword)

end Spacings

/-! ## Values -/

theorem Separated.mark {token : Token} {tokens : List Token} (htoken : token.isWord = false)
    (h : Separated tokens) : Separated (token :: tokens) := by
  refine separated_cons.mpr ⟨?_, h⟩
  intro hword
  rw [htoken] at hword
  cases hword

/-- The tokens are separated, and the first of them is no word. -/
def Follows (tokens : List Token) : Prop :=
  Separated tokens ∧ ∀ next ∈ tokens.head?, next.isWord = false

theorem follows_nil : Follows [] := ⟨separated_nil, by simp⟩

theorem Follows.mark {token : Token} {tokens : List Token} (htoken : token.isWord = false)
    (h : Separated tokens) : Follows (token :: tokens) := by
  refine ⟨h.mark htoken, ?_⟩
  rintro next ⟨⟩
  exact htoken

mutual

/-- The tokens of a value are separated, and stay so in front of what is no word. -/
theorem separated_tokens_append (json : Json) {rest : List Token} (hrest : Follows rest) :
    Separated (json.tokens ++ rest) := by
  match json with
  | .null | .bool _ | .num | .str _ | .broken =>
    exact separated_cons.mpr ⟨fun _ => hrest.2, hrest.1⟩
  | .arr [] | .obj [] => exact .mark rfl (.mark rfl hrest.1)
  | .arr (item :: items) =>
    rw [tokens, List.cons_append, List.append_assoc]
    have hitems := follows_itemTokens_append items hrest
    exact .mark rfl (separated_tokens_append item hitems)
  | .obj ((key, value) :: members) =>
    rw [tokens, List.cons_append, List.cons_append, List.cons_append, List.append_assoc]
    have hmembers := follows_memberTokens_append members hrest
    exact .mark rfl (.mark rfl (.mark rfl (separated_tokens_append value hmembers)))

theorem follows_itemTokens_append (items : List Json) {rest : List Token} (hrest : Follows rest) :
    Follows (itemTokens items ++ rest) := by
  match items with
  | [] => exact .mark rfl hrest.1
  | item :: items =>
    rw [itemTokens, List.cons_append, List.append_assoc]
    have hitems := follows_itemTokens_append items hrest
    exact .mark rfl (separated_tokens_append item hitems)

theorem follows_memberTokens_append (members : List (String × Json)) {rest : List Token}
    (hrest : Follows rest) : Follows (memberTokens members ++ rest) := by
  match members with
  | [] => exact .mark rfl hrest.1
  | (key, value) :: members =>
    rw [memberTokens, List.cons_append, List.cons_append, List.cons_append, List.append_assoc]
    have hmembers := follows_memberTokens_append members hrest
    exact .mark rfl (.mark rfl (.mark rfl (separated_tokens_append value hmembers)))

end

theorem separated_tokens (json : Json) : Separated json.tokens := by
  have h := separated_tokens_append json follows_nil
  rwa [List.append_nil] at h

/-- A text that is read as the tokens of a value stands for that value. -/
theorem ofText?_eq_of_lex {json : Json} {text : String}
    (h : lex text.toList = some json.tokens) : ofText? text = some json := by
  rw [ofText?, h]
  exact parse_tokens json

/-- A value is read back from its text without blanks. -/
theorem ofText?_compact (json : Json) : ofText? json.compact = some json := by
  apply ofText?_eq_of_lex
  rw [compact, String.toList_ofList]
  exact (spacing_flatMap_text (separated_tokens json)).lex_eq

/-- A value is read back from its text on several lines. -/
theorem ofText?_pretty (json : Json) : ofText? json.pretty = some json := by
  apply ofText?_eq_of_lex
  rw [pretty, String.toList_ofList]
  exact (spacing_layout 0 (separated_tokens json)).lex_eq

end DotModel.Json
