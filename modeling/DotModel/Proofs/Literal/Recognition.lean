import DotModel.Proofs.Literal.Scanning

/-!
# Recognised identifiers

The recognisers of the four forms accept the languages of the forms and nothing else.  A piece of a
string leaves the scan of the string in the state in which the scan came to it.  For brackets, the
other direction keeps one body for each bracket that is still open.
-/

namespace DotModel.Literal

open Computability

variable {p : Char → Prop} {text rest : List Char} {c : Char} {L : Language Char}

/-! ## Classes of characters -/

theorem isDigit_iff : c.isDigit = true ↔ '0' ≤ c ∧ c ≤ '9' := by
  simp [Char.isDigit, Char.le_def]

theorem isUpper_iff : c.isUpper = true ↔ 'A' ≤ c ∧ c ≤ 'Z' := decide_eq_true_iff

theorem isLower_iff : c.isLower = true ↔ 'a' ≤ c ∧ c ≤ 'z' := by
  change (decide ('a'.val ≤ c.val) && decide (c.val ≤ 'z'.val)) = true ↔
    'a'.val ≤ c.val ∧ c.val ≤ 'z'.val
  rw [Bool.and_eq_true, decide_eq_true_eq, decide_eq_true_eq]

theorem isWordStart_iff : isWordStart c = true ↔
    ('A' ≤ c ∧ c ≤ 'Z') ∨ ('a' ≤ c ∧ c ≤ 'z') ∨ c = '_' ∨ 128 ≤ c.toNat := by
  have halpha : c.isAlpha = (c.isUpper || c.isLower) := rfl
  simp only [isWordStart, halpha, Bool.or_eq_true, beq_iff_eq, isUpper_iff, isLower_iff,
    decide_eq_true_eq]
  tauto

theorem singleton_mem_single : [c] ∈ single p ↔ p c := by
  constructor
  · rintro ⟨d, hd, heq⟩
    rw [List.cons.injEq] at heq
    exact heq.1 ▸ hd
  · exact fun hc => ⟨c, hc, rfl⟩

theorem single_add_single (p q : Char → Prop) :
    single p + single q = single fun c => p c ∨ q c := by
  ext text
  constructor
  · rintro (⟨c, hc, rfl⟩ | ⟨c, hc, rfl⟩)
    · exact singleton_mem_single.mpr (Or.inl hc)
    · exact singleton_mem_single.mpr (Or.inr hc)
  · rintro ⟨c, hc | hc, rfl⟩
    · exact Or.inl (singleton_mem_single.mpr hc)
    · exact Or.inr (singleton_mem_single.mpr hc)

theorem singleton_eq_single (c : Char) : ({[c]} : Language Char) = single (· = c) := by
  ext text
  constructor
  · rintro rfl
    exact singleton_mem_single.mpr rfl
  · rintro ⟨_, rfl, rfl⟩
    rfl

theorem mem_kstar_single_iff : text ∈ (single p)∗ ↔ ∀ c ∈ text, p c := by
  rw [Language.mem_kstar]
  constructor
  · rintro ⟨pieces, rfl, hpieces⟩ c hc
    obtain ⟨piece, hpiece, hc⟩ := List.mem_flatten.mp hc
    obtain ⟨d, hd, rfl⟩ := hpieces piece hpiece
    rw [List.mem_singleton] at hc
    exact hc ▸ hd
  · intro h
    refine ⟨text.map fun c => [c], (List.flatMap_singleton' text).symm, ?_⟩
    rw [List.forall_mem_map]
    exact fun c hc => singleton_mem_single.mpr (h c hc)

theorem mem_single_mul_iff :
    text ∈ single p * L ↔ ∃ c rest, text = c :: rest ∧ p c ∧ rest ∈ L := by
  rw [Language.mem_mul]
  constructor
  · rintro ⟨_, ⟨c, hc, rfl⟩, rest, hrest, rfl⟩
    exact ⟨c, rest, rfl, hc, hrest⟩
  · rintro ⟨c, rest, rfl, hc, hrest⟩
    exact ⟨[c], singleton_mem_single.mpr hc, rest, hrest, rfl⟩

theorem mem_singleton_mul_iff : text ∈ {[c]} * L ↔ ∃ rest, text = c :: rest ∧ rest ∈ L := by
  rw [singleton_eq_single, mem_single_mul_iff]
  simp

theorem append_mem_kstar {piece : List Char} (hpiece : piece ∈ L) (hrest : rest ∈ L∗) :
    piece ++ rest ∈ L∗ := by
  obtain ⟨pieces, rfl, hpieces⟩ := hrest
  exact ⟨piece :: pieces, List.flatten_cons.symm, List.forall_mem_cons.mpr ⟨hpiece, hpieces⟩⟩

/-! ## Words -/

theorem isPlain_iff : isPlain text = true ↔ text ∈ words := by
  rw [words, wordStart, digit, single_add_single, mem_single_mul_iff]
  cases text with
  | nil => simp [isPlain]
  | cons c rest =>
      simp [isPlain, isWordPart, mem_kstar_single_iff, isWordStart_iff, isDigit_iff]

/-! ## Numerals -/

theorem mem_digits_iff : text ∈ digit∗ ↔ ∀ c ∈ text, c.isDigit = true := by
  simp only [digit, mem_kstar_single_iff, isDigit_iff]

theorem mem_someDigits_iff :
    text ∈ digit * digit∗ ↔ text ≠ [] ∧ ∀ c ∈ text, c.isDigit = true := by
  rw [digit, mem_single_mul_iff, ← digit]
  cases text with
  | nil => simp
  | cons c rest => simp [mem_digits_iff, isDigit_iff]

theorem count_point_of_digits (h : ∀ c ∈ text, c.isDigit = true) : text.count '.' = 0 := by
  rw [List.count_eq_zero]
  exact fun hpoint => absurd (h '.' hpoint) (by decide)

/-- A numeral without its sign: digits, or digits before and behind a point, not on both sides
none. -/
theorem isUnsignedNumeral_iff : isUnsignedNumeral text = true ↔
    (text ≠ [] ∧ ∀ c ∈ text, c.isDigit = true) ∨
      ∃ whole fraction, text = whole ++ '.' :: fraction ∧ (whole ≠ [] ∨ fraction ≠ []) ∧
        (∀ c ∈ whole, c.isDigit = true) ∧ ∀ c ∈ fraction, c.isDigit = true := by
  simp only [isUnsignedNumeral, Bool.and_eq_true, List.any_eq_true, List.all_eq_true,
    Bool.or_eq_true, beq_iff_eq, decide_eq_true_eq]
  constructor
  · rintro ⟨⟨⟨d, hd, hdigit⟩, hall⟩, hcount⟩
    by_cases hpoint : '.' ∈ text
    · obtain ⟨whole, fraction, rfl⟩ := List.append_of_mem hpoint
      rw [List.count_append, List.count_cons_self] at hcount
      have hwhole : '.' ∉ whole := List.count_eq_zero.mp (by omega)
      have hfraction : '.' ∉ fraction := List.count_eq_zero.mp (by omega)
      refine Or.inr ⟨whole, fraction, rfl, ?_, ?_, ?_⟩
      · rw [List.mem_append, List.mem_cons] at hd
        rcases hd with hd | rfl | hd
        · exact Or.inl (List.ne_nil_of_mem hd)
        · cases hdigit
        · exact Or.inr (List.ne_nil_of_mem hd)
      · intro c hc
        exact (hall c (by simp [hc])).resolve_right fun heq => hwhole (heq ▸ hc)
      · intro c hc
        exact (hall c (by simp [hc])).resolve_right fun heq => hfraction (heq ▸ hc)
    · refine Or.inl ⟨List.ne_nil_of_mem hd, fun c hc => ?_⟩
      exact (hall c hc).resolve_right fun heq => hpoint (heq ▸ hc)
  · rintro (⟨hne, hdigits⟩ | ⟨whole, fraction, rfl, hne, hwhole, hfraction⟩)
    · obtain ⟨d, hd⟩ := List.exists_mem_of_ne_nil text hne
      refine ⟨⟨⟨d, hd, hdigits d hd⟩, fun c hc => Or.inl (hdigits c hc)⟩, ?_⟩
      rw [count_point_of_digits hdigits]
      exact Nat.zero_le 1
    · refine ⟨⟨?_, ?_⟩, ?_⟩
      · rcases hne with hne | hne
        · obtain ⟨d, hd⟩ := List.exists_mem_of_ne_nil whole hne
          exact ⟨d, by simp [hd], hwhole d hd⟩
        · obtain ⟨d, hd⟩ := List.exists_mem_of_ne_nil fraction hne
          exact ⟨d, by simp [hd], hfraction d hd⟩
      · intro c hc
        rw [List.mem_append, List.mem_cons] at hc
        rcases hc with hc | rfl | hc
        · exact Or.inl (hwhole c hc)
        · exact Or.inr rfl
        · exact Or.inl (hfraction c hc)
      · rw [List.count_append, List.count_cons_self, count_point_of_digits hwhole,
          count_point_of_digits hfraction]

theorem mem_unsigned_iff :
    text ∈ {['.']} * (digit * digit∗) + digit * digit∗ * (1 + {['.']} * digit∗) ↔
      isUnsignedNumeral text = true := by
  rw [isUnsignedNumeral_iff, Language.mem_add, mul_add, mul_one, Language.mem_add,
    mem_someDigits_iff, mem_singleton_mul_iff]
  simp only [mem_someDigits_iff, Language.mem_mul (l := digit * digit∗), mem_singleton_mul_iff,
    mem_digits_iff]
  constructor
  · rintro (⟨fraction, rfl, hne, hfraction⟩ | hdigits |
      ⟨whole, ⟨hne, hwhole⟩, _, ⟨fraction, rfl, hfraction⟩, rfl⟩)
    · exact Or.inr ⟨[], fraction, rfl, Or.inr hne, by simp, hfraction⟩
    · exact Or.inl hdigits
    · exact Or.inr ⟨whole, fraction, rfl, Or.inl hne, hwhole, hfraction⟩
  · rintro (hdigits | ⟨whole, fraction, rfl, hne, hwhole, hfraction⟩)
    · exact Or.inr (Or.inl hdigits)
    · cases whole with
      | nil =>
          exact Or.inl ⟨fraction, rfl, hne.resolve_left fun h => h rfl, hfraction⟩
      | cons d whole =>
          exact Or.inr (Or.inr ⟨d :: whole, ⟨List.cons_ne_nil d whole, hwhole⟩, _,
            ⟨fraction, rfl, hfraction⟩, rfl⟩)

theorem isUnsignedNumeral_minus : isUnsignedNumeral ('-' :: rest) = false := by
  simp [isUnsignedNumeral]

theorem isNumeral_iff : isNumeral text = true ↔ text ∈ numerals := by
  rw [numerals, add_mul, one_mul, Language.mem_add, mem_unsigned_iff, mem_singleton_mul_iff]
  simp only [mem_unsigned_iff]
  unfold isNumeral
  split
  · rename_i rest
    simp [isUnsignedNumeral_minus]
  · rename_i hminus
    constructor
    · exact Or.inl
    · rintro (h | ⟨rest, rfl, -⟩)
      · exact h
      · exact absurd rfl (hminus rest)

/-! ## Quoted strings -/

/-- A piece of a body leaves its scan as it was. -/
theorem scanEscapes_append {piece : List Char}
    (h : piece ∈ quotedPieces) :
    scanEscapes false (piece ++ rest) = scanEscapes false rest := by
  rw [quotedPieces, Language.mem_add, mem_singleton_mul_iff] at h
  rcases h with ⟨c, ⟨hquote, hslash⟩, rfl⟩ | ⟨_, rfl, c, -, rfl⟩
  · simp [scanEscapes, hquote, hslash]
  · simp [scanEscapes]

/-- The induction takes the text apart from the front; a backslash that waits for the next character
is put back in front of it. -/
theorem mem_quotedPieces_of_scanEscapes {escaped : Bool} (h : scanEscapes escaped text = true) :
    (if escaped then ['\\'] else []) ++ text ∈ quotedPieces∗ := by
  induction text generalizing escaped with
  | nil =>
      cases escaped with
      | true => cases h
      | false => exact Language.nil_mem_kstar _
  | cons c rest ih =>
      rw [scanEscapes] at h
      split at h
      · cases h
      have hrest := ih h
      cases escaped with
      | true =>
          have hpair : ['\\', c] ∈ quotedPieces :=
            Or.inr (mem_singleton_mul_iff.mpr ⟨[c], rfl, singleton_mem_single.mpr trivial⟩)
          simpa using append_mem_kstar hpair hrest
      | false =>
          rename_i hquote
          by_cases hslash : c = '\\'
          · subst hslash
            exact hrest
          · have hplain : [c] ∈ quotedPieces :=
              Or.inl (singleton_mem_single.mpr ⟨fun h => hquote ⟨h, rfl⟩, hslash⟩)
            simpa [hslash] using append_mem_kstar hplain hrest

theorem scanEscapes_iff : scanEscapes false text = true ↔ text ∈ quotedPieces∗ := by
  constructor
  · exact fun h => mem_quotedPieces_of_scanEscapes h
  · rintro ⟨pieces, rfl, hpieces⟩
    induction pieces with
    | nil => rfl
    | cons piece pieces ih =>
        rw [List.forall_mem_cons] at hpieces
        rw [List.flatten_cons, scanEscapes_append hpieces.1, ih hpieces.2]

theorem isQuoted_iff : isQuoted text = true ↔ text ∈ quotedStrings := by
  rw [isQuoted_eq_true_iff, quotedStrings, mul_assoc, mem_singleton_mul_iff]
  simp only [Language.mem_mul, scanEscapes_iff]
  constructor
  · rintro ⟨body, rfl, hbody⟩
    exact ⟨_, rfl, body, hbody, ['"'], rfl, rfl⟩
  · rintro ⟨_, rfl, body, hbody, _, rfl, rfl⟩
    exact ⟨body, rfl, hbody⟩

/-! ## HTML strings -/

/-- What a phrase consists of leaves the number of open brackets as it was. -/
theorem HtmlDerives.closesAngle_append {phrase : HtmlPhrase} (h : HtmlDerives phrase text)
    (inner : Nat) (rest : List Char) :
    closesAngle inner (text ++ rest) = closesAngle inner rest := by
  induction h generalizing inner rest with
  | @string body _ ih =>
      calc
        closesAngle inner ('<' :: (body ++ ['>']) ++ rest) =
            closesAngle (inner + 1) (body ++ '>' :: rest) := by simp [closesAngle]
        _ = closesAngle (inner + 1) ('>' :: rest) := ih (inner + 1) ('>' :: rest)
        _ = closesAngle inner rest := by rw [closesAngle]
  | nil => rfl
  | @char c tail hopen hclose _ ih =>
      rw [List.cons_append, closesAngle_of_ne hopen hclose, ih]
  | @nested string tail _ _ ihstring ihtail =>
      rw [List.append_assoc, ihstring, ihtail]

/-- A text that closes the outer bracket and `inner` more is one body before each closing
bracket. -/
theorem exists_bodies_of_closesAngle {inner : Nat} (h : closesAngle inner text = true) :
    ∃ bodies : List (List Char), bodies.length = inner + 1 ∧
      (∀ body ∈ bodies, HtmlDerives .body body) ∧ text = bodies.flatMap (· ++ ['>']) := by
  fun_induction closesAngle inner text with
  | case1 => cases h
  | case2 inner rest ih =>
      obtain ⟨bodies, hlength, hbodies, rfl⟩ := ih h
      match bodies, hlength with
      | nested :: body :: bodies, hlength =>
          rw [List.forall_mem_cons, List.forall_mem_cons] at hbodies
          obtain ⟨hnested, hbody, hbodies⟩ := hbodies
          refine ⟨('<' :: (nested ++ ['>']) ++ body) :: bodies, Nat.succ.inj hlength,
            List.forall_mem_cons.mpr ⟨.nested (.string hnested) hbody, hbodies⟩, ?_⟩
          simp
  | case3 rest =>
      rw [List.isEmpty_iff] at h
      exact ⟨[[]], rfl, by simp [HtmlDerives.nil], by simp [h]⟩
  | case4 rest inner ih =>
      obtain ⟨bodies, hlength, hbodies, rfl⟩ := ih h
      exact ⟨[] :: bodies, congrArg (· + 1) hlength, List.forall_mem_cons.mpr ⟨.nil, hbodies⟩, rfl⟩
  | case5 inner c rest hopen hzero hsucc ih =>
      have hclose : c ≠ '>' := by
        cases inner with
        | zero => exact hzero rfl
        | succ inner => exact hsucc inner rfl
      obtain ⟨bodies, hlength, hbodies, rfl⟩ := ih h
      match bodies, hlength with
      | body :: bodies, hlength =>
          rw [List.forall_mem_cons] at hbodies
          exact ⟨(c :: body) :: bodies, hlength,
            List.forall_mem_cons.mpr ⟨.char hopen hclose hbodies.1, hbodies.2⟩, rfl⟩

theorem isHtml_iff : isHtml text = true ↔ text ∈ htmlStrings := by
  constructor
  · intro h
    unfold isHtml at h
    split at h
    · obtain ⟨bodies, hlength, hbodies, rfl⟩ := exists_bodies_of_closesAngle h
      obtain ⟨body, rfl⟩ := List.length_eq_one_iff.mp hlength
      rw [List.flatMap_singleton]
      exact .string (hbodies body (List.mem_singleton_self body))
    · cases h
  · rintro ⟨hbody⟩
    rw [isHtml, hbody.closesAngle_append]
    rfl

/-! ## All forms -/

theorem Form.recognises_iff (form : Form) : form.recognises text = true ↔ text ∈ form.language := by
  cases form with
  | word => exact isPlain_iff
  | numeral => exact isNumeral_iff
  | quoted => exact isQuoted_iff
  | html => exact isHtml_iff

end DotModel.Literal
