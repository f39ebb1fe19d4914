import DotModel.Json.Value

/-!
# Reading back the tokens of a value

`parse` inverts `tokens`.  The proof follows a value from the outside to the inside: reading the
tokens of a part leads to the frame around it with the part done, whatever comes after.
-/

namespace DotModel.Json

/-- The tokens of a value begin with one that closes no array. -/
theorem exists_tokens_eq_cons (json : Json) :
    ∃ t ts, json.tokens = t :: ts ∧ t ≠ .closeArr := by
  cases json with
  | arr items => cases items <;> simp [tokens]
  | obj members =>
    cases members with
    | nil => simp [tokens]
    | cons m members =>
      obtain ⟨key, value⟩ := m
      simp [tokens]
  | _ => simp [tokens]

theorem parseValue_openArr (frames : List Frame) {t : Token} (ts : List Token)
    (ht : t ≠ .closeArr) :
    parseValue frames (.openArr :: t :: ts) = parseValue (.arr [] :: frames) (t :: ts) := by
  cases t with
  | closeArr => exact absurd rfl ht
  | _ => rfl

/-- Members whose keys denote texts make an object. -/
theorem ofMembers_map_some (members : List (String × Json)) :
    ofMembers (members.map fun m => (some m.1, m.2)) = .obj members := by
  have h : (members.map fun m => (some m.1, m.2)).mapM
      (fun m : Option String × Json => m.1.map fun key => (key, m.2)) = some members := by
    induction members with
    | nil => rfl
    | cons m members ih => simp [List.mapM_cons, ih]
  simp [ofMembers, h]

mutual

theorem parseValue_tokens (json : Json) (frames : List Frame) (rest : List Token) :
    parseValue frames (json.tokens ++ rest) = parseAfter frames json rest := by
  match json with
  | .null | .bool _ | .num | .str _ | .broken => simp [tokens, parseValue, ofText]
  | .arr [] => simp [tokens, parseValue]
  | .arr (item :: items) =>
    obtain ⟨t, ts, heq, ht⟩ := exists_tokens_eq_cons item
    rw [tokens, heq, List.cons_append, List.cons_append, List.cons_append,
      parseValue_openArr _ _ ht, ← List.cons_append, ← List.cons_append, ← heq,
      List.append_assoc, parseValue_tokens item, parseAfter_itemTokens items]
    rfl
  | .obj [] => simp [tokens, parseValue]
  | .obj ((key, value) :: members) =>
    simp only [tokens, List.cons_append, List.append_assoc, parseValue]
    rw [parseValue_tokens value, parseAfter_memberTokens members, ← ofMembers_map_some]
    rfl

theorem parseAfter_itemTokens (items done : List Json) (json : Json) (frames : List Frame)
    (rest : List Token) :
    parseAfter (.arr done :: frames) json (itemTokens items ++ rest) =
      parseAfter frames (.arr (done.reverse ++ json :: items)) rest := by
  match items with
  | [] => simp [itemTokens, parseAfter]
  | item :: items =>
    simp only [itemTokens, List.cons_append, List.append_assoc, parseAfter]
    rw [parseValue_tokens item, parseAfter_itemTokens items]
    simp

theorem parseAfter_memberTokens (members : List (String × Json))
    (done : List (Option String × Json)) (key : String) (json : Json) (frames : List Frame)
    (rest : List Token) :
    parseAfter (.obj done (some key) :: frames) json (memberTokens members ++ rest) =
      parseAfter frames
        (ofMembers (done.reverse ++ (some key, json) :: members.map fun m => (some m.1, m.2)))
        rest := by
  match members with
  | [] => simp [memberTokens, parseAfter]
  | (next, value) :: members =>
    simp only [memberTokens, List.cons_append, List.append_assoc, parseAfter]
    rw [parseValue_tokens value, parseAfter_memberTokens members]
    simp

end

/-- A value is what its tokens stand for. -/
theorem parse_tokens (json : Json) : parse json.tokens = some json := by
  have h := parseValue_tokens json [] []
  rw [List.append_nil] at h
  rw [parse, h, parseAfter]

end DotModel.Json
