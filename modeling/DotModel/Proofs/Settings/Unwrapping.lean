import DotModel.Settings.Toml.Wrapped

/-!
# Values without wrappings

In a value that wraps nothing there is nothing to be taken out: it stands for itself.  Otherwise a
mark anywhere in it makes it unreadable, and without marks a wrapping stands for what it wraps.
-/

namespace DotModel.Settings.Toml

mutual

/-- Whether no table in the value has one of the two keys of wrapped values. -/
def isPlain : Value → Bool
  | .list items => areItemsPlain items
  | .table entries =>
    (entries.lookup placeKey).isNone && (entries.lookup contentKey).isNone &&
      areEntriesPlain entries
  | _ => true

/-- Whether all items of a list are plain. -/
def areItemsPlain : List Value → Bool
  | [] => true
  | item :: rest => isPlain item && areItemsPlain rest

/-- Whether all values of a table are plain, whatever the keys of the table itself. -/
def areEntriesPlain : List (String × Value) → Bool
  | [] => true
  | (_, value) :: rest => isPlain value && areEntriesPlain rest

end

mutual

theorem unwrap?_of_isPlain {value : Value} (h : isPlain value) : unwrap? value = some value := by
  cases value with
  | list items =>
      rw [isPlain] at h
      simp [unwrap?, unwrapItems?_of_arePlain h]
  | table entries =>
      simp only [isPlain, Bool.and_eq_true, Option.isNone_iff_eq_none] at h
      obtain ⟨⟨hplace, hcontent⟩, hentries⟩ := h
      simp [unwrap?, unwrapEntries?_of_arePlain hentries, hplace, hcontent]
  | bool | int | fraction | date | text => simp [unwrap?]

theorem unwrapItems?_of_arePlain {items : List Value} (h : areItemsPlain items) :
    unwrapItems? items = some items := by
  cases items with
  | nil => rw [unwrapItems?]
  | cons item rest =>
      rw [areItemsPlain, Bool.and_eq_true] at h
      simp [unwrapItems?, unwrap?_of_isPlain h.1, unwrapItems?_of_arePlain h.2]

theorem unwrapEntries?_of_arePlain {entries : List (String × Value)} (h : areEntriesPlain entries) :
    unwrapEntries? entries = some entries := by
  cases entries with
  | nil => rw [unwrapEntries?]
  | cons entry rest =>
      rw [areEntriesPlain, Bool.and_eq_true] at h
      simp [unwrapEntries?, unwrap?_of_isPlain h.1, unwrapEntries?_of_arePlain h.2]

end

/-! ## Marks -/

mutual

/-- Whether some table in the value has the key of a mark. -/
def isMarked : Value → Bool
  | .list items => areItemsMarked items
  | .table entries => (entries.lookup placeKey).isSome || areEntriesMarked entries
  | _ => false

/-- Whether some item of a list is marked. -/
def areItemsMarked : List Value → Bool
  | [] => false
  | item :: rest => isMarked item || areItemsMarked rest

/-- Whether some value of a table is marked, whatever the keys of the table itself. -/
def areEntriesMarked : List (String × Value) → Bool
  | [] => false
  | (_, value) :: rest => isMarked value || areEntriesMarked rest

end

/-- What is found in a table without its wrappings is what was found before, without them. -/
theorem lookup_cases_of_unwrapEntries? {entries inner : List (String × Value)}
    (h : unwrapEntries? entries = some inner) (key : String) :
    entries.lookup key = none ∧ inner.lookup key = none ∨
      ∃ value value', entries.lookup key = some value ∧ unwrap? value = some value' ∧
        inner.lookup key = some value' := by
  induction entries generalizing inner with
  | nil =>
      rw [unwrapEntries?] at h
      cases h
      exact Or.inl ⟨rfl, rfl⟩
  | cons entry rest ih =>
      obtain ⟨name, value⟩ := entry
      simp only [unwrapEntries?, Option.bind_eq_bind, Option.bind_eq_some_iff] at h
      obtain ⟨value', hvalue, rest', hrest, h⟩ := h
      cases h
      rw [List.lookup_cons, List.lookup_cons]
      cases key == name with
      | true => exact Or.inr ⟨value, value', rfl, hvalue, rfl⟩
      | false => exact ih hrest

/-- A table that is not marked itself stands for the value under `contentKey`, if there is one. -/
theorem unwrap?_table {entries inner : List (String × Value)}
    (h : unwrapEntries? entries = some inner) :
    unwrap? (.table entries) =
      if (entries.lookup placeKey).isSome then none
      else match entries.lookup contentKey with
        | some content => unwrap? content
        | none => some (.table inner) := by
  rw [unwrap?, h, Option.bind_eq_bind, Option.bind_some]
  rcases lookup_cases_of_unwrapEntries? h placeKey with
    ⟨hplace, hplace'⟩ | ⟨_, _, hplace, -, hplace'⟩
  · rw [hplace, hplace']
    rcases lookup_cases_of_unwrapEntries? h contentKey with
      ⟨hcontent, hcontent'⟩ | ⟨_, _, hcontent, hvalue, hcontent'⟩
    · simp [hcontent, hcontent']
    · simp [hcontent, hcontent', hvalue]
  · simp [hplace, hplace']

mutual

theorem isNone_unwrap? (value : Value) : (unwrap? value).isNone = isMarked value := by
  match value with
  | .list items => simp [unwrap?, isMarked, isNone_unwrapItems? items]
  | .table entries =>
    have hentries := isNone_unwrapEntries? entries
    cases h : unwrapEntries? entries with
    | none =>
        rw [h] at hentries
        simp [unwrap?, isMarked, h, ← hentries]
    | some inner =>
        rw [h] at hentries
        rw [unwrap?_table h, isMarked, ← hentries]
        rcases lookup_cases_of_unwrapEntries? h contentKey with
          ⟨hcontent, -⟩ | ⟨_, _, hcontent, hvalue, -⟩
        · cases hplace : entries.lookup placeKey <;> simp [hcontent]
        · cases hplace : entries.lookup placeKey <;> simp [hcontent, hvalue]
  | .bool _ | .int _ | .fraction | .date | .text _ => simp [unwrap?, isMarked]

theorem isNone_unwrapItems? (items : List Value) :
    (unwrapItems? items).isNone = areItemsMarked items := by
  match items with
  | [] => simp [unwrapItems?, areItemsMarked]
  | item :: rest =>
    rw [areItemsMarked, ← isNone_unwrap? item, ← isNone_unwrapItems? rest, unwrapItems?]
    cases unwrap? item <;> cases unwrapItems? rest <;> simp

theorem isNone_unwrapEntries? (entries : List (String × Value)) :
    (unwrapEntries? entries).isNone = areEntriesMarked entries := by
  match entries with
  | [] => simp [unwrapEntries?, areEntriesMarked]
  | (key, value) :: rest =>
    rw [areEntriesMarked, ← isNone_unwrap? value, ← isNone_unwrapEntries? rest, unwrapEntries?]
    cases unwrap? value <;> cases unwrapEntries? rest <;> simp

end

theorem unwrapEntries?_eq_none_iff {entries : List (String × Value)} :
    unwrapEntries? entries = none ↔ areEntriesMarked entries = true := by
  rw [← Option.isNone_iff_eq_none, isNone_unwrapEntries?]

/-- Without marks in it, a wrapping may be replaced by what it wraps. -/
theorem unwrapEntries?_wrapped {entries : List (String × Value)} {content : Value}
    (hmarks : isMarked (.table entries) = false)
    (hcontent : entries.lookup contentKey = some content) (key : String)
    (before after : List (String × Value)) :
    unwrapEntries? (before ++ (key, .table entries) :: after) =
      unwrapEntries? (before ++ (key, content) :: after) := by
  rw [isMarked, Bool.or_eq_false_iff] at hmarks
  obtain ⟨inner, hinner⟩ : ∃ inner, unwrapEntries? entries = some inner := by
    rw [← Option.isSome_iff_exists, ← Option.not_isNone, isNone_unwrapEntries?, hmarks.2]
    rfl
  have hvalue : unwrap? (.table entries) = unwrap? content := by
    rw [unwrap?_table hinner, hmarks.1, hcontent]
    rfl
  induction before with
  | nil => simp [unwrapEntries?, hvalue]
  | cons entry rest ih =>
    rw [List.cons_append, List.cons_append, unwrapEntries?, unwrapEntries?, ih]

end DotModel.Settings.Toml
