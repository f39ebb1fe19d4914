import DotModel.Literal.Scan

/-!
# Scans of identifiers

The scans with flags and counters say the same as the recognisers of the forms.  The scan of an HTML
string always has an answer: up to the bracket that closes the outer one, at least that one is open.
-/

namespace DotModel.Literal

variable {text rest : List Char} {c : Char}

/-! ## Numerals -/

theorem scanDigits_eq (seenPoint : Bool) (text : List Char) :
    scanDigits seenPoint text =
      (text.all (fun c => c.isDigit || c == '.') &&
        decide (text.count '.' + seenPoint.toNat ≤ 1)) := by
  induction text generalizing seenPoint with
  | nil => cases seenPoint <;> rfl
  | cons c rest ih =>
      by_cases hpoint : c = '.'
      · subst hpoint
        cases seenPoint with
        | true => simp [scanDigits]
        | false => simp [scanDigits, ih]
      · have hbeq : (c == '.') = false := beq_eq_false_iff_ne.mpr hpoint
        rw [scanDigits, ih, List.all_cons, List.count_cons_of_ne hpoint, Bool.and_assoc, hbeq,
          Bool.or_false]
        exact fun _ => hpoint

/-- The scan refuses what has no digit by itself: no text, and a point alone. -/
theorem scanNumeral_eq (text : List Char) : scanNumeral text = isNumeral text := by
  have hminus : isNumeral text = isUnsignedNumeral (dropMinus text) := by
    unfold isNumeral
    split
    · rfl
    · rw [dropMinus]
      assumption
  rw [scanNumeral, hminus, isUnsignedNumeral]
  generalize dropMinus text = digits
  by_cases hnone : digits = [] ∨ digits = ['.']
  · rcases hnone with rfl | rfl <;> rfl
  · rw [if_neg hnone, scanDigits_eq, Bool.and_assoc, Bool.toNat_false, Nat.add_zero,
      Bool.eq_and_self]
    intro h
    by_contra hany
    rw [Bool.and_eq_true, List.all_eq_true, decide_eq_true_eq] at h
    obtain ⟨hall, hcount⟩ := h
    have hpoints : digits = List.replicate digits.length '.' := by
      apply List.eq_replicate_of_mem
      intro c hc
      have hdigit : c.isDigit ≠ true := fun hd => hany (List.any_eq_true.mpr ⟨c, hc, hd⟩)
      simpa [hdigit] using hall c hc
    rw [hpoints, List.count_replicate_self] at hcount
    apply hnone
    rcases Nat.le_one_iff_eq_zero_or_eq_one.mp hcount with hlength | hlength
    · exact Or.inl (List.length_eq_zero_iff.mp hlength)
    · rw [hlength] at hpoints
      exact Or.inr hpoints

/-! ## Quoted strings -/

theorem closesQuote_append_quote (escaped : Bool) (text : List Char) :
    closesQuote escaped (text ++ ['"']) = scanEscapes escaped text := by
  induction text generalizing escaped with
  | nil => cases escaped <;> rfl
  | cons c rest ih =>
      cases escaped with
      | true => simp [closesQuote, scanEscapes, ih]
      | false =>
          by_cases hquote : c = '"'
          · subst hquote
            simp [closesQuote, scanEscapes]
          by_cases hslash : c = '\\'
          · subst hslash
            simp [closesQuote, scanEscapes, ih]
          · rw [List.cons_append, closesQuote, ih]
            · simp [scanEscapes, hquote, hslash]
            · exact hquote
            · exact hslash

theorem exists_eq_append_quote_of_closesQuote {escaped : Bool}
    (h : closesQuote escaped text = true) :
    ∃ body, text = body ++ ['"'] := by
  fun_induction closesQuote escaped text with
  | case1 => cases h
  | case2 c rest ih =>
      obtain ⟨body, rfl⟩ := ih h
      exact ⟨c :: body, rfl⟩
  | case3 rest =>
      rw [List.isEmpty_iff] at h
      exact ⟨[], congrArg ('"' :: ·) h⟩
  | case4 rest ih =>
      obtain ⟨body, rfl⟩ := ih h
      exact ⟨'\\' :: body, rfl⟩
  | case5 c rest hquote hslash ih =>
      obtain ⟨body, rfl⟩ := ih h
      exact ⟨c :: body, rfl⟩

/-- A quoted string is what stands between its quotes, where the scan of the escapes succeeds. -/
theorem isQuoted_eq_true_iff :
    isQuoted text = true ↔
      ∃ body, text = '"' :: (body ++ ['"']) ∧ scanEscapes false body = true := by
  constructor
  · intro h
    unfold isQuoted at h
    split at h
    · obtain ⟨body, rfl⟩ := exists_eq_append_quote_of_closesQuote h
      exact ⟨body, rfl, by rwa [closesQuote_append_quote] at h⟩
    · cases h
  · rintro ⟨body, rfl, h⟩
    rw [isQuoted, closesQuote_append_quote, h]

theorem betweenQuotes_eq_some_iff {body : List Char} :
    betweenQuotes text = some body ↔ text = '"' :: (body ++ ['"']) := by
  constructor
  · intro h
    unfold betweenQuotes at h
    split at h
    · rename_i rest
      split at h
      · rename_i hlast
        cases h
        rw [List.dropLast_append_getLast? '"' hlast]
      · cases h
    · cases h
  · rintro rfl
    simp [betweenQuotes]

theorem any_betweenQuotes (text : List Char) :
    (betweenQuotes text).any (scanEscapes false) = isQuoted text := by
  rw [Bool.eq_iff_iff, isQuoted_eq_true_iff, Option.any_eq_true]
  simp only [betweenQuotes_eq_some_iff]

/-! ## HTML strings -/

theorem closesAngle_of_ne {inner : Nat} (hopen : c ≠ '<') (hclose : c ≠ '>') :
    closesAngle inner (c :: rest) = closesAngle inner rest := by
  rw [closesAngle]
  · exact hopen
  · exact fun _ => hclose
  · exact fun _ _ => hclose

theorem byteLength_eq_zero_iff : byteLength text = 0 ↔ text = [] := by
  cases text with
  | nil => simp [byteLength]
  | cons c rest =>
      have hsize := c.utf8Size_pos
      rw [byteLength]
      simp only [reduceCtorEq, iff_false]
      omega

/-- While the outer bracket is open, at least one bracket is open to be closed.  The byte behind the
bracket that closes the outer one is the end of the text if nothing is left. -/
theorem scanBrackets_eq {size position : Nat} (inner : Nat)
    (h : position + byteLength text = size) :
    scanBrackets size (inner + 1) position text = some (closesAngle inner text) := by
  induction text generalizing inner position with
  | nil => cases inner <;> rfl
  | cons c rest ih =>
      rw [byteLength] at h
      by_cases hopen : c = '<'
      · subst hopen
        have hsize : '<'.utf8Size = 1 := by decide
        rw [scanBrackets, closesAngle, ih (inner + 1) (by omega)]
      by_cases hclose : c = '>'
      · subst hclose
        have hsize : '>'.utf8Size = 1 := by decide
        rw [scanBrackets]
        cases inner with
        | zero =>
            have hend : position + 1 = size ↔ rest.isEmpty = true := by
              rw [List.isEmpty_iff, ← byteLength_eq_zero_iff]
              omega
            rw [if_pos rfl, closesAngle, Option.some.injEq, Bool.eq_iff_iff, decide_eq_true_iff,
              hend]
        | succ inner => rw [if_neg (Nat.succ_ne_zero inner), closesAngle, ih inner (by omega)]
      · rw [scanBrackets, closesAngle_of_ne hopen hclose, ih inner (by omega)]
        · exact hopen
        · exact fun _ => hclose
        · exact fun _ _ => hclose

theorem scanAngles_eq (text : List Char) : scanAngles text = some (isHtml text) := by
  unfold isHtml
  split
  · rename_i rest
    have hsize : '<'.utf8Size = 1 := by decide
    rw [scanAngles, List.head?_cons, if_pos rfl, scanBrackets, byteLength, hsize,
      scanBrackets_eq 0 (Nat.zero_add 1 ▸ rfl)]
  · rename_i hopen
    rw [scanAngles, if_neg]
    intro hhead
    obtain ⟨rest, rfl⟩ := List.head?_eq_some_iff.mp hhead
    exact hopen rest rfl

/-! ## All forms -/

theorem Form.scan_eq (form : Form) (text : List Char) :
    form.scan text = some (form.recognises text) := by
  cases form with
  | word => rfl
  | numeral => exact congrArg some (scanNumeral_eq text)
  | quoted => exact congrArg some (any_betweenQuotes text)
  | html => exact scanAngles_eq text

example : Form.html.scan ['<', 'é', '<', 'b', '>', '>'] = some true ∧
    Form.html.scan ['<', 'é', '>', '>'] = some false := by decide

end DotModel.Literal
