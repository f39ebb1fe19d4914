import DotModel.Json.DocumentForm
import DotModel.Proofs.Json.Lexing
import DotModel.Proofs.Json.Parts

/-!
# Stored documents are read back

Each part of a document is read from its stored form as it was.  Only nesting can prevent that: a
document is read back if and only if its stored form nests no more arrays and objects than the
limit allows.  Statements are read with a bound on their nesting of their own, which never matters
since every subgraph nests several arrays and objects.
-/

namespace DotModel

open Json (fields?_obj list?_map ofText?_pretty)

/-! ## Parts of statements -/

@[simp] theorem Ident.ofJson?_toJson (id : Ident) : ofJson? id.toJson = some id := rfl

theorem Attr.ofJson?_toJson (a : Attr) : ofJson? a.toJson = some a := by
  rw [ofJson?, toJson, fields?_obj _ _ (by simp)]
  simp [List.lookup_cons]

@[simp] theorem AttrStmt.ofJson?_toJson (a : AttrStmt) : ofJson? a.toJson = some a := by
  rw [ofJson?, toJson, fields?_obj _ _ (by simp)]
  simp [List.lookup_cons]

@[simp] theorem Attr.list?_toJson (attrs : List Attr) :
    Json.list? ofJson? (.arr (attrs.map toJson)) = some attrs :=
  list?_map fun a _ => a.ofJson?_toJson

@[simp] theorem AttrStmt.list?_toJson (attrs : List AttrStmt) :
    Json.list? ofJson? (.arr (attrs.map toJson)) = some attrs :=
  list?_map fun a _ => a.ofJson?_toJson

@[simp] theorem NodeRef.ofJson?_toJson (ref : NodeRef) : ofJson? ref.toJson = some ref := by
  obtain ⟨id, port⟩ := ref
  cases port <;>
  · rw [ofJson?, toJson, fields?_obj _ _ (by simp)]
    simp [List.lookup_cons]

@[simp] theorem NodeStmt.ofJson?_toJson (s : NodeStmt) : ofJson? s.toJson = some s := by
  rw [ofJson?, toJson, fields?_obj _ _ (by simp)]
  simp [List.lookup_cons]

@[simp] theorem Endpoint.ofJson?_toJson (e : Endpoint) : ofJson? e.toJson = some e := by
  cases e <;> simp [ofJson?, toJson]

@[simp] theorem EdgeStmt.ofJson?_toJson (s : EdgeStmt) : ofJson? s.toJson = some s := by
  rw [ofJson?, toJson, fields?_obj _ _ (by simp)]
  simp [List.lookup_cons]

@[simp] theorem Header.ofJson?_toJson (h : Header) : ofJson? h.toJson = some h := by
  obtain ⟨id, directed, strict⟩ := h
  cases id <;>
  · rw [ofJson?, toJson, fields?_obj _ _ (by simp)]
    simp [List.lookup_cons, Ident.toJson, Ident.ofJson?]

/-! ## Statements -/

namespace Stmt

mutual

/-- The number of statements that lie one inside the other, this one included. -/
def height : Stmt → Nat
  | .subgraph _ _ body => heights body + 1
  | .attr _ | .node _ | .edge _ => 1

/-- The greatest height of a statement of a body. -/
def heights : List Stmt → Nat
  | [] => 0
  | s :: rest => max (height s) (heights rest)

end

theorem height_pos (s : Stmt) : 1 ≤ s.height := by
  cases s with
  | subgraph => exact Nat.le_add_left 1 _
  | attr | node | edge => exact Nat.le_refl 1

mutual

/-- A statement is read back exactly if its height is allowed. -/
theorem ofJson?_toJson (s : Stmt) (levels : Nat) :
    ofJson? levels s.toJson = if s.height ≤ levels then some s else none := by
  match levels, s with
  | 0, s =>
    have hpos := s.height_pos
    rw [ofJson?, if_neg (by omega)]
  | levels + 1, .attr stmt => simp [toJson, ofJson?, height]
  | levels + 1, .node stmt => simp [toJson, ofJson?, height]
  | levels + 1, .edge stmt => simp [toJson, ofJson?, height]
  | levels + 1, .subgraph id attrs body =>
    have hbody := list?_bodyToJson body levels
    have hfields := fields?_obj ["id", "attrs", "stmts"] [("id", id.toJson),
      ("attrs", .arr (attrs.map AttrStmt.toJson)), ("stmts", .arr (bodyToJson body))] (by simp)
    by_cases h : heights body ≤ levels
    · rw [if_pos h] at hbody
      simp [toJson, ofJson?, hfields, List.lookup_cons, hbody, height, h]
    · rw [if_neg h] at hbody
      simp [toJson, ofJson?, hfields, List.lookup_cons, hbody, height, h]

/-- A body is read back exactly if the heights of its statements are allowed. -/
theorem list?_bodyToJson (body : List Stmt) (levels : Nat) :
    Json.list? (ofJson? levels) (.arr (bodyToJson body)) =
      if heights body ≤ levels then some body else none := by
  match body with
  | [] => simp [bodyToJson, heights, Json.list?]
  | s :: rest =>
    have hrest := list?_bodyToJson rest levels
    rw [Json.list?] at hrest ⊢
    rw [bodyToJson, List.mapM_cons, ofJson?_toJson s levels, hrest, heights]
    simp only [Nat.max_le]
    by_cases hs : s.height ≤ levels <;> by_cases hr : heights rest ≤ levels <;> simp [hs, hr]

end

theorem bodyToJson_injective {body other : List Stmt} (h : bodyToJson body = bodyToJson other) :
    body = other := by
  have hread : ∀ stmts, heights stmts ≤ max (heights body) (heights other) →
      Json.list? (ofJson? (max (heights body) (heights other))) (.arr (bodyToJson stmts)) =
        some stmts := by
    intro stmts hstmts
    rw [list?_bodyToJson, if_pos hstmts]
  have hbody := hread body (Nat.le_max_left ..)
  rw [h, hread other (Nat.le_max_right ..)] at hbody
  exact (Option.some.inj hbody).symm

mutual

theorem height_le_depth (s : Stmt) : s.height ≤ s.toJson.depth := by
  match s with
  | .attr _ | .node _ | .edge _ =>
    rw [toJson, Json.depth]
    exact Nat.le_add_right 1 _
  | .subgraph id attrs body =>
    have hbody := heights_le_itemsDepth body
    simp only [height, toJson, Json.depth, Json.membersDepth]
    omega

theorem heights_le_itemsDepth (body : List Stmt) :
    heights body ≤ Json.itemsDepth (bodyToJson body) := by
  match body with
  | [] => exact Nat.zero_le _
  | s :: rest =>
    have hs := height_le_depth s
    have hrest := heights_le_itemsDepth rest
    rw [heights, bodyToJson, Json.itemsDepth]
    omega

end

end Stmt

/-! ## Documents -/

namespace Document

theorem heights_le_depth (doc : Document) : Stmt.heights doc.stmts ≤ doc.toJson.depth := by
  have hstmts := Stmt.heights_le_itemsDepth doc.stmts
  simp only [toJson, Json.depth, Json.membersDepth]
  omega

theorem ofJson?_toJson (doc : Document) :
    ofJson? doc.toJson = if doc.toJson.depth ≤ nestingLimit then some doc else none := by
  have hread : ofJson? doc.toJson = (Json.list? (Stmt.ofJson? nestingLimit)
      (.arr (Stmt.bodyToJson doc.stmts))).bind fun stmts =>
        if (Document.mk doc.header stmts).toJson.depth ≤ nestingLimit then
          some ⟨doc.header, stmts⟩ else none := by
    have hfields := fields?_obj ["decl", "stmts"] [("decl", doc.header.toJson),
      ("stmts", .arr (Stmt.bodyToJson doc.stmts))] (by simp)
    have hform : doc.toJson = .obj [("decl", doc.header.toJson),
      ("stmts", .arr (Stmt.bodyToJson doc.stmts))] := rfl
    rw [hform]
    simp [ofJson?, hfields, List.lookup_cons]
  rw [hread, Stmt.list?_bodyToJson]
  have hheights := doc.heights_le_depth
  by_cases h : doc.toJson.depth ≤ nestingLimit
  · rw [if_pos (by omega), Option.bind_some]
  · by_cases hstmts : Stmt.heights doc.stmts ≤ nestingLimit
    · rw [if_pos hstmts, Option.bind_some]
    · rw [if_neg hstmts, if_neg h, Option.bind_none]

theorem toJson_injective {doc other : Document} (h : doc.toJson = other.toJson) :
    doc = other := by
  simp only [toJson, Json.obj.injEq, List.cons.injEq, Prod.mk.injEq, Json.arr.injEq, true_and,
    and_true] at h
  obtain ⟨hheader, hstmts⟩ := h
  have hread := doc.header.ofJson?_toJson
  rw [hheader, Header.ofJson?_toJson] at hread
  cases doc
  cases other
  rw [mk.injEq]
  exact ⟨(Option.some.inj hread).symm, Stmt.bodyToJson_injective hstmts⟩

theorem load_save_of_depth (doc : Document) :
    load doc.save = if doc.toJson.depth ≤ nestingLimit then .ok doc else .error .unreadable := by
  rw [load, save, ofText?_pretty, Option.bind_eq_bind, Option.bind_some, ofJson?_toJson]
  by_cases h : doc.toJson.depth ≤ nestingLimit
  · rw [if_pos h, if_pos h]
  · rw [if_neg h, if_neg h]

/-- The stored text of a document stands for its stored form, and it is read as the very document
if that form nests no deeper than the limit allows, and refused otherwise.  Different documents
have different texts. -/
theorem load_save_eq_ite (doc : Document) :
    Json.ofText? doc.save = some doc.toJson ∧
      load doc.save =
        (if doc.toJson.depth ≤ nestingLimit then .ok doc else .error .unreadable) ∧
      ∀ other : Document, other.save = doc.save ↔ other = doc := by
  refine ⟨ofText?_pretty doc.toJson, doc.load_save_of_depth, ?_⟩
  intro other
  constructor
  · intro h
    have hread : Json.ofText? other.save = some doc.toJson := h ▸ ofText?_pretty doc.toJson
    exact toJson_injective (Option.some.inj ((ofText?_pretty other.toJson).symm.trans hread))
  · rintro rfl
    rfl

end Document

end DotModel
