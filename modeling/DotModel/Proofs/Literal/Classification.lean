import DotModel.Proofs.Literal.Recognition

/-!
# Forms of identifiers

A text has one form at most, since the first character tells which one it can be.  It is safe if it
has a form and is no keyword, in whatever ASCII case.
-/

namespace DotModel.Literal

variable {text rest : List Char} {c : Char}

/-! ## Keywords -/

theorem toNat_toLower (c : Char) :
    c.toLower.toNat = if 65 ≤ c.toNat ∧ c.toNat ≤ 90 then c.toNat + 32 else c.toNat := by
  by_cases h : 65 ≤ c.toNat ∧ c.toNat ≤ 90
  · have hlower : c.toLower = ⟨c.val + 32, _⟩ := dif_pos h
    rw [hlower, if_pos h, Char.toNat_mk, UInt32.toNat_add]
    change (c.toNat + 32) % 2 ^ 32 = c.toNat + 32
    omega
  · have hlower : c.toLower = c := dif_neg h
    rw [hlower, if_neg h]

theorem toNat_toUpper (c : Char) :
    c.toUpper.toNat = if 97 ≤ c.toNat ∧ c.toNat ≤ 122 then c.toNat - 32 else c.toNat := by
  by_cases h : 97 ≤ c.toNat ∧ c.toNat ≤ 122
  · have hupper : c.toUpper = ⟨c.val + 4294967264, _⟩ := dif_pos h
    rw [hupper, if_pos h, Char.toNat_mk, UInt32.toNat_add]
    change (c.toNat + 4294967264) % 2 ^ 32 = c.toNat - 32
    omega
  · have hupper : c.toUpper = c := dif_neg h
    rw [hupper, if_neg h]

theorem toLower_eq_iff {letter : Char} (h : letter.isLower = true) :
    c.toLower = letter ↔ c = letter ∨ c = letter.toUpper := by
  have hletter : 97 ≤ letter.toNat ∧ letter.toNat ≤ 122 := isLower_iff.mp h
  rw [← Char.toNat_inj, ← Char.toNat_inj, ← Char.toNat_inj, toNat_toLower, toNat_toUpper,
    if_pos hletter]
  split <;> omega

theorem map_toLower_eq_iff {word : List Char} (h : word.all Char.isLower = true) :
    text.map Char.toLower = word ↔ IsCasingOf text word := by
  induction text generalizing word with
  | nil => cases word <;> simp [IsCasingOf]
  | cons c rest ih =>
      cases word with
      | nil => simp [IsCasingOf]
      | cons letter word =>
          rw [List.all_cons, Bool.and_eq_true] at h
          rw [List.map_cons, List.cons.injEq, toLower_eq_iff h.1, ih h.2, IsCasingOf,
            IsCasingOf, List.forall₂_cons]

theorem isKeyword_iff : isKeyword text = true ↔ ∃ word ∈ keywords, IsCasingOf text word := by
  have hletters : ∀ word ∈ keywords, word.all Char.isLower = true := by decide
  rw [isKeyword, List.contains_iff_mem]
  constructor
  · exact fun hmem => ⟨_, hmem, (map_toLower_eq_iff (hletters _ hmem)).mp rfl⟩
  · rintro ⟨word, hword, hcasing⟩
    rwa [(map_toLower_eq_iff (hletters word hword)).mpr hcasing]

/-! ## All forms -/

/-- The only form that a text with this first character can have. -/
def Form.ofHead (c : Char) : Form :=
  if c = '"' then quoted else if c = '<' then html else if isWordStart c then word else numeral

theorem isWordStart_of_isDigit (h : c.isDigit = true) : isWordStart c = false := by
  have hdigit : '0'.toNat ≤ c.toNat ∧ c.toNat ≤ '9'.toNat := Char.isDigit_iff_toNat.mp h
  have hnine : '9'.toNat = 57 := rfl
  rw [← Bool.not_eq_true, isWordStart_iff]
  rintro (⟨hle, -⟩ | ⟨hle, -⟩ | rfl | hle)
  · have hle : 65 ≤ c.toNat := hle
    omega
  · have hle : 97 ≤ c.toNat := hle
    omega
  · cases h
  · omega

theorem head_of_isNumeral (h : isNumeral (c :: rest) = true) :
    c = '-' ∨ c = '.' ∨ c.isDigit = true := by
  unfold isNumeral at h
  split at h
  · rename_i heq
    exact Or.inl (List.cons.inj heq).1
  · simp only [isUnsignedNumeral, Bool.and_eq_true, List.all_cons, Bool.or_eq_true,
      beq_iff_eq] at h
    exact Or.inr h.1.2.1.symm

theorem Form.ofHead_of_recognises {form : Form} (h : form.recognises (c :: rest) = true) :
    Form.ofHead c = form := by
  cases form with
  | word =>
      rw [recognises, isPlain, Bool.and_eq_true] at h
      have hne : ∀ d : Char, isWordStart d = false → c ≠ d := fun d hd =>
        ne_of_apply_ne isWordStart (by rw [h.1, hd]; decide)
      rw [ofHead, if_neg (hne '"' (by decide)), if_neg (hne '<' (by decide)), if_pos h.1]
  | numeral =>
      rcases head_of_isNumeral h with rfl | rfl | hdigit
      · decide
      · decide
      · have hne : ∀ d : Char, d.isDigit = false → c ≠ d := fun d hd =>
          ne_of_apply_ne Char.isDigit (by rw [hdigit, hd]; decide)
        rw [ofHead, if_neg (hne '"' (by decide)), if_neg (hne '<' (by decide)),
          isWordStart_of_isDigit hdigit, if_neg Bool.false_ne_true]
  | quoted =>
      rw [recognises] at h
      unfold isQuoted at h
      split at h
      · rename_i heq
        rw [(List.cons.inj heq).1, ofHead, if_pos rfl]
      · cases h
  | html =>
      rw [recognises] at h
      unfold isHtml at h
      split at h
      · rename_i heq
        rw [(List.cons.inj heq).1]
        decide
      · cases h

theorem Form.not_recognises_nil (form : Form) : form.recognises [] = false := by
  cases form <;> rfl

theorem isSafe_iff : isSafe text = true ↔
    (∃ form : Form, form.recognises text = true) ∧ isKeyword text = false := by
  have hforms : (∃ form : Form, form.recognises text = true) ↔
      (isPlain text || isNumeral text || isQuoted text || isHtml text) = true := by
    simp only [Bool.or_eq_true]
    constructor
    · rintro ⟨form, h⟩
      cases form with
      | word => exact Or.inl (Or.inl (Or.inl h))
      | numeral => exact Or.inl (Or.inl (Or.inr h))
      | quoted => exact Or.inl (Or.inr h)
      | html => exact Or.inr h
    · rintro (((h | h) | h) | h)
      · exact ⟨.word, h⟩
      · exact ⟨.numeral, h⟩
      · exact ⟨.quoted, h⟩
      · exact ⟨.html, h⟩
  rw [hforms, isSafe, Bool.and_eq_true, Bool.not_eq_true', and_comm]

/-- What there is to say about the forms of a text. -/
structure IsClassified (text : List Char) : Prop where
  /-- Each recogniser accepts the texts of its form, -/
  recognises_iff : ∀ form : Form, form.recognises text = true ↔ text ∈ form.language
  /-- and so does the scan, whose number of open brackets never has to become negative. -/
  scan_eq : ∀ form : Form, form.scan text = some (form.recognises text)
  /-- A text has one form at most, -/
  unique : ∀ f g : Form, f.recognises text = true → g.recognises text = true → f = g
  /-- and it is safe if it has one and is no keyword, whatever the case of its letters. -/
  isSafe_iff : isSafe text = true ↔
    (∃ form : Form, text ∈ form.language) ∧ ¬∃ word ∈ keywords, IsCasingOf text word

theorem every_text_isClassified (text : List Char) : IsClassified text where
  recognises_iff := Form.recognises_iff
  scan_eq form := form.scan_eq text
  unique f g hf hg := by
    cases text with
    | nil =>
        rw [f.not_recognises_nil] at hf
        cases hf
    | cons c rest => exact (Form.ofHead_of_recognises hf).symm.trans (Form.ofHead_of_recognises hg)
  isSafe_iff := by
    rw [isSafe_iff, ← isKeyword_iff, Bool.not_eq_true]
    simp only [Form.recognises_iff]

end DotModel.Literal
