import DotModel.Graph.Command
import DotModel.Proofs.Json.StoredDocument
import DotModel.Proofs.Writing.Shape

/-!
# Nesting of stored documents

A statement inside of a block lies three arrays and objects deeper in the stored form than the
block: inside of the object that tells its kind, the object of the block and the array of its body.
So the nesting of the stored form follows from the height of the statements, up to what the
innermost one takes itself, and the reader's limit on the former is a limit on the latter: at most
41 statements may lie one inside the other.

Settings can guarantee this if they allow at most 40 levels.  The default settings allow more, so
that they let documents be written which cannot be read back.
-/

namespace DotModel

/-! ## What single statements take -/

theorem Json.itemsDepth_append (items rest : List Json) :
    itemsDepth (items ++ rest) = max (itemsDepth items) (itemsDepth rest) := by
  induction items with
  | nil => simp [itemsDepth]
  | cons item items ih => rw [List.cons_append, itemsDepth, itemsDepth, ih, Nat.max_assoc]

theorem Json.itemsDepth_map_le {α : Type} {write : α → Json} {bound : Nat}
    (h : ∀ x, (write x).depth ≤ bound) (xs : List α) : itemsDepth (xs.map write) ≤ bound := by
  induction xs with
  | nil => exact Nat.zero_le bound
  | cons x rest ih => exact Nat.max_le.mpr ⟨h x, ih⟩

theorem Attr.itemsDepth_toJson_le (attrs : List Attr) :
    Json.itemsDepth (attrs.map toJson) ≤ 1 :=
  Json.itemsDepth_map_le (fun _ => Nat.le_refl 1) attrs

theorem AttrStmt.itemsDepth_toJson_le (attrs : List AttrStmt) :
    Json.itemsDepth (attrs.map toJson) ≤ 1 :=
  Json.itemsDepth_map_le (fun _ => Nat.le_refl 1) attrs

theorem NodeRef.depth_toJson (ref : NodeRef) : ref.toJson.depth = 1 := by
  obtain ⟨id, port⟩ := ref
  cases port <;> rfl

theorem NodeStmt.depth_toJson (s : NodeStmt) : 2 ≤ s.toJson.depth ∧ s.toJson.depth ≤ 3 := by
  have hattrs := Attr.itemsDepth_toJson_le s.attrs
  simp only [toJson, Json.depth, Json.membersDepth, NodeRef.depth_toJson]
  omega

theorem Endpoint.depth_toJson_le (e : Endpoint) : e.toJson.depth ≤ 2 := by
  cases e with
  | node ref =>
      simp only [toJson, Json.depth, Json.membersDepth, NodeRef.depth_toJson]
      omega
  | subgraph id => exact Nat.le_succ 1

theorem EdgeStmt.depth_toJson_le (s : EdgeStmt) : s.toJson.depth ≤ 3 := by
  have hattrs := Attr.itemsDepth_toJson_le s.attrs
  have hsrc := s.src.depth_toJson_le
  have hdst := s.dst.depth_toJson_le
  simp only [toJson, Json.depth, Json.membersDepth]
  omega

/-! ## What nested statements take -/

namespace Stmt

theorem heights_append (stmts rest : List Stmt) :
    heights (stmts ++ rest) = max (heights stmts) (heights rest) := by
  induction stmts with
  | nil => simp [heights]
  | cons s stmts ih => rw [List.cons_append, heights, heights, ih, Nat.max_assoc]

theorem heights_map_le_one {α : Type} {f : α → Stmt} (h : ∀ x, height (f x) = 1)
    (xs : List α) : heights (xs.map f) ≤ 1 := by
  induction xs with
  | nil => exact Nat.zero_le 1
  | cons x rest ih => exact Nat.max_le.mpr ⟨(h x).le, ih⟩

theorem bodyToJson_append (stmts rest : List Stmt) :
    bodyToJson (stmts ++ rest) = bodyToJson stmts ++ bodyToJson rest := by
  induction stmts with
  | nil => rfl
  | cons s stmts ih => rw [List.cons_append, bodyToJson, bodyToJson, ih, List.cons_append]

mutual

theorem depth_toJson_le (s : Stmt) : s.toJson.depth ≤ 3 * s.height + 1 := by
  match s with
  | .attr stmt => exact Nat.le_add_left 2 2
  | .node stmt =>
    have hstmt := stmt.depth_toJson
    simp only [toJson, Json.depth, Json.membersDepth, height]
    omega
  | .edge stmt =>
    have hstmt := stmt.depth_toJson_le
    simp only [toJson, Json.depth, Json.membersDepth, height]
    omega
  | .subgraph id attrs body =>
    have hattrs := AttrStmt.itemsDepth_toJson_le attrs
    have hbody := itemsDepth_bodyToJson_le body
    simp only [toJson, Json.depth, Json.membersDepth, Ident.toJson, height]
    omega

theorem itemsDepth_bodyToJson_le (body : List Stmt) :
    Json.itemsDepth (bodyToJson body) ≤ 3 * heights body + 1 := by
  match body with
  | [] => exact Nat.zero_le _
  | s :: rest =>
    have hs := depth_toJson_le s
    have hrest := itemsDepth_bodyToJson_le rest
    rw [bodyToJson, Json.itemsDepth, heights]
    omega

end

mutual

/-- Attributes aside, no statement takes less. -/
theorem IsMember.le_depth_toJson (s : Stmt) (h : s.IsMember) :
    3 * s.height ≤ s.toJson.depth := by
  match s with
  | .node stmt =>
    have hstmt := stmt.depth_toJson
    simp only [toJson, Json.depth, Json.membersDepth, height]
    omega
  | .subgraph id attrs body =>
    have hbody := AreMembers.le_itemsDepth body h
    simp only [toJson, Json.depth, Json.membersDepth, height]
    omega

theorem AreMembers.le_itemsDepth (body : List Stmt) (h : AreMembers body) :
    3 * heights body ≤ Json.itemsDepth (bodyToJson body) := by
  match body with
  | [] => exact Nat.zero_le _
  | s :: rest =>
    have hs := IsMember.le_depth_toJson s h.1
    have hrest := AreMembers.le_itemsDepth rest h.2
    rw [bodyToJson, Json.itemsDepth, heights]
    omega

end

end Stmt

namespace Place

mutual

/-- Nodes and mentions lie inside of as many statements as there are bodies around them. -/
theorem height_toStmt_le (g : Graph) (place : Place) :
    (place.toStmt g).height ≤ bodyDepth place + 1 :=
  match place with
  | .node _ => Nat.le_refl 1
  | .mention _ => Nat.le_refl 1
  | .body _ inside => Nat.succ_le_succ (heights_toStmts_le g inside)

theorem heights_toStmts_le (g : Graph) (places : List Place) :
    Stmt.heights (toStmts g places) ≤ bodyDepths places + 1 :=
  match places with
  | [] => Nat.zero_le _
  | place :: rest => by
      have hplace := height_toStmt_le g place
      have hrest := heights_toStmts_le g rest
      rw [toStmts_cons, Stmt.heights, bodyDepths_cons]
      omega

end

end Place

/-! ## Documents -/

theorem Document.depth_toJson (doc : Document) :
    doc.toJson.depth = Json.itemsDepth (Stmt.bodyToJson doc.stmts) + 2 := by
  have hheader : doc.header.toJson.depth = 1 := by
    obtain ⟨id, directed, strict⟩ := doc.header
    cases id <;> rfl
  simp only [toJson, Json.depth, Json.membersDepth, hheader]
  omega

namespace Graph

variable {g : Graph} {s : Settings} {doc : Document}

/-- The reader's limit, as one on the statements of a written document. -/
theorem depth_le_nestingLimit_iff (h : g.toDocument s = .ok doc) :
    doc.toJson.depth ≤ nestingLimit ↔ Stmt.heights doc.stmts ≤ 41 := by
  rw [Document.depth_toJson, nestingLimit]
  constructor
  · intro hdepth
    obtain ⟨layout, lost, edges, rfl, -⟩ := exists_parts_of_toDocument h
    have hmembers := Stmt.AreMembers.le_itemsDepth _
      (Stmt.areMembers_append (Place.areMembers_toStmts g layout) (areMembers_map_nodeStmt lost))
    have hattrs := Stmt.heights_map_le_one (f := .attr) (fun _ => rfl) (attrStmts g.name g.attrs)
    have hedges := Stmt.heights_map_le_one (f := .edge) (fun _ => rfl) edges
    -- Beyond the first level only members lie, so that a greater height is theirs.
    simp only [Stmt.bodyToJson_append, Json.itemsDepth_append, Stmt.heights_append] at *
    omega
  · intro hheight
    have hdepth := Stmt.itemsDepth_bodyToJson_le doc.stmts
    omega

theorem heights_le_of_toDocument (h : g.toDocument s = .ok doc) :
    Stmt.heights doc.stmts ≤ s.maxDepth + 1 := by
  obtain ⟨layout, lost, edges, rfl, hlevels⟩ := exists_parts_of_toDocument h
  have hattrs := Stmt.heights_map_le_one (f := .attr) (fun _ => rfl) (attrStmts g.name g.attrs)
  have hlost := Stmt.heights_map_le_one (f := nodeStmt) (fun _ => rfl) lost
  have hedges := Stmt.heights_map_le_one (f := .edge) (fun _ => rfl) edges
  have hlayout := Place.heights_toStmts_le g layout
  simp only [Stmt.heights_append]
  omega

/-- A written document is read back as it is if at most 41 of its statements lie one inside the
other, which is so whenever the settings allow at most 40 levels, and it is refused otherwise. -/
theorem load_save_of_toDocument (h : g.toDocument s = .ok doc) :
    Document.load doc.save =
        (if Stmt.heights doc.stmts ≤ 41 then .ok doc else .error .unreadable) ∧
      (s.maxDepth ≤ 40 → Stmt.heights doc.stmts ≤ 41) := by
  constructor
  · rw [doc.load_save_of_depth]
    simp only [depth_le_nestingLimit_iff h]
  · intro hlevels
    have hheights := heights_le_of_toDocument h
    omega

/-- The name of the subgraph at a level of a tower; the graph itself is anonymous. -/
def towerName (level : Nat) : String := String.ofList (List.replicate level 's')

/-- As many subgraphs as there are levels, each but the first in the one before it. -/
def tower (levels : Nat) : Graph :=
  empty.performAll ((List.range levels).map fun level =>
    .addSubgraph (towerName level) (towerName (level + 1)) ∅)

theorem tower_load_save :
    ∃ doc, (tower 41).toDocument {} = .ok doc ∧ Document.load doc.save = .ok doc := by
  have hwritten : ((tower 41).toDocument {}).map (fun doc => Stmt.heights doc.stmts) = .ok 41 := by
    decide +kernel
  obtain ⟨doc, h, hheight⟩ := exists_eq_ok_of_map_eq_ok hwritten
  refine ⟨doc, h, ?_⟩
  rw [(load_save_of_toDocument h).1, if_pos hheight.le]

/-- The default settings let a tower of one more level be written, and then it is not read back. -/
theorem tower_unreadable :
    (tower 42).Reachable ∧
      ∃ doc, (tower 42).toDocument {} = .ok doc ∧ Document.load doc.save = .error .unreadable := by
  have hreachable : (tower 42).Reachable := ⟨_, rfl⟩
  have hwritten : ((tower 42).toDocument {}).map (fun doc => Stmt.heights doc.stmts) = .ok 42 := by
    decide +kernel
  obtain ⟨doc, h, hheight⟩ := exists_eq_ok_of_map_eq_ok hwritten
  refine ⟨hreachable, doc, h, ?_⟩
  rw [doc.load_save_of_depth, if_neg]
  rw [depth_le_nestingLimit_iff h]
  omega

end Graph

end DotModel
