import DotModel.Graph.Writing
import DotModel.Graph.Replay

/-!
# Safe names

The text of the identifier under which a name is written.  A word for a kind of element gets a
suffix, and with the suffix it is no such word, so what is written for a safe name is that name.
-/

namespace DotModel

/-- The text of the identifier for a name. -/
def safeName (name : String) : String := (Ident.ofName name).text

theorem Ident.ofName_eq (name : String) : Ident.ofName name = ⟨safeName name⟩ := rfl

theorem safeName_of_not_isElementWord {name : String}
    (h : Literal.isElementWord name.toList = false) : safeName name = name := by
  simp [safeName, Ident.ofName, Literal.disambiguate, h]

theorem safeName_of_isElementWord {name : String}
    (h : Literal.isElementWord name.toList = true) :
    safeName name = String.ofList (name.toList ++ Literal.elementSuffix) := by
  simp [safeName, Ident.ofName, Literal.disambiguate, h]

/-- No word for a kind of element is another one with the suffix. -/
theorem not_isElementWord_append_elementSuffix {word : List Char}
    (h : Literal.isElementWord word = true) :
    Literal.isElementWord (word ++ Literal.elementSuffix) = false := by
  have hlonger : ∀ lower ∈ Literal.elementWords,
      Literal.elementWords.contains (lower ++ Literal.elementSuffix.map Char.toLower) = false := by
    decide
  rw [Literal.isElementWord, List.contains_iff_mem] at h
  rw [Literal.isElementWord, List.map_append]
  exact hlonger (word.map Char.toLower) h

@[simp] theorem safeName_safeName (name : String) : safeName (safeName name) = safeName name := by
  by_cases h : Literal.isElementWord name.toList = true
  · apply safeName_of_not_isElementWord
    rw [safeName_of_isElementWord h, String.toList_ofList]
    exact not_isElementWord_append_elementSuffix h
  · rw [safeName_of_not_isElementWord (Bool.eq_false_iff.mpr h),
      safeName_of_not_isElementWord (Bool.eq_false_iff.mpr h)]

@[simp] theorem Ident.ofName_safeName (name : String) :
    Ident.ofName (safeName name) = Ident.ofName name := by
  rw [Ident.ofName_eq, Ident.ofName_eq, safeName_safeName]

/-- The first name is a word for a kind of element, and the second is what is written for it. -/
def Clash (word name : String) : Prop :=
  Literal.isElementWord word.toList = true ∧ name.toList = word.toList ++ Literal.elementSuffix

instance (word name : String) : Decidable (Clash word name) :=
  inferInstanceAs (Decidable (_ ∧ _))

theorem Clash.not_isElementWord {word name : String} (h : Clash word name) :
    Literal.isElementWord name.toList = false := by
  rw [h.2]
  exact not_isElementWord_append_elementSuffix h.1

theorem Clash.ne {word name : String} (h : Clash word name) : word ≠ name := by
  rintro rfl
  have hword := h.not_isElementWord
  rw [h.1] at hword
  cases hword

theorem Clash.safeName_eq {word name : String} (h : Clash word name) :
    safeName word = safeName name := by
  rw [safeName_of_isElementWord h.1, safeName_of_not_isElementWord h.not_isElementWord, ← h.2,
    String.ofList_toList]

/-- A name that is no word for a kind of element is written alike only for a clash. -/
theorem clash_of_safeName_eq {word name : String}
    (hword : Literal.isElementWord word.toList = true)
    (hname : Literal.isElementWord name.toList = false) (h : safeName word = safeName name) :
    Clash word name := by
  rw [safeName_of_isElementWord hword, safeName_of_not_isElementWord hname] at h
  exact ⟨hword, by rw [← h, String.toList_ofList]⟩

/-- Two names are written alike only if one is the word that the other is written for. -/
theorem safeName_eq_iff {m n : String} :
    safeName m = safeName n ↔ m = n ∨ Clash m n ∨ Clash n m := by
  constructor
  · intro h
    cases hm : Literal.isElementWord m.toList with
    | true =>
        cases hn : Literal.isElementWord n.toList with
        | true =>
            rw [safeName_of_isElementWord hm, safeName_of_isElementWord hn, String.ofList_inj,
              List.append_cancel_right_eq] at h
            exact Or.inl (String.toList_inj.mp h)
        | false => exact Or.inr (Or.inl (clash_of_safeName_eq hm hn h))
    | false =>
        cases hn : Literal.isElementWord n.toList with
        | true => exact Or.inr (Or.inr (clash_of_safeName_eq hn hm h.symm))
        | false =>
            rw [safeName_of_not_isElementWord hm, safeName_of_not_isElementWord hn] at h
            exact Or.inl h
  · rintro (rfl | h | h)
    · rfl
    · exact h.safeName_eq
    · exact h.safeName_eq.symm

theorem safeName_eq_empty_iff {name : String} : safeName name = "" ↔ name = "" := by
  constructor
  · intro h
    by_cases hword : Literal.isElementWord name.toList = true
    · simp [safeName, Ident.ofName, Literal.disambiguate, hword, Literal.elementSuffix] at h
    · rwa [safeName_of_not_isElementWord (Bool.eq_false_iff.mpr hword)] at h
  · rintro rfl
    decide

/-- The empty name, which is not written, is read back as the empty name. -/
theorem Graph.name_toGraph_header (g : Graph) : g.header.toGraph.name = safeName g.name := by
  by_cases h : g.name = ""
  · rw [h]
    simp only [header, h, if_true, Header.toGraph]
    decide
  · simp only [header, h, if_false, Header.toGraph]
    rfl

end DotModel
