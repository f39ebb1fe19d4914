import DotModel.Proofs.Writing.Depth

/-!
# The shape of written documents

A written document has the attributes of the graph first, its members in the middle and its edges
last.  Below the top level there are members only: the attributes of a block are kept apart from
its body, and edges stand in no block.  This holds of every graph that can be written, also of one
whose collections do not fit together.
-/

namespace DotModel

namespace Stmt

mutual

/-- Whether a statement is that of a node or a block with such statements only. -/
def IsMember : Stmt → Prop
  | .node _ => True
  | .subgraph _ _ body => AreMembers body
  | .attr _ | .edge _ => False

/-- Whether all statements of a body are those of nodes and of such blocks. -/
def AreMembers : List Stmt → Prop
  | [] => True
  | s :: rest => IsMember s ∧ AreMembers rest

end

theorem areMembers_append {stmts rest : List Stmt} (hstmts : AreMembers stmts)
    (hrest : AreMembers rest) : AreMembers (stmts ++ rest) := by
  induction stmts with
  | nil => exact hrest
  | cons s stmts ih => exact ⟨hstmts.1, ih hstmts.2⟩

end Stmt

namespace Place

mutual

theorem isMember_toStmt (g : Graph) (place : Place) : (place.toStmt g).IsMember :=
  match place with
  | .node _ => trivial
  | .mention _ => trivial
  | .body _ inside => areMembers_toStmts g inside

theorem areMembers_toStmts (g : Graph) (places : List Place) :
    Stmt.AreMembers (toStmts g places) :=
  match places with
  | [] => trivial
  | place :: rest => ⟨isMember_toStmt g place, areMembers_toStmts g rest⟩

end

end Place

namespace Graph

variable {g : Graph} {s : Settings}

theorem areMembers_map_nodeStmt (nodes : List Member) :
    Stmt.AreMembers (nodes.map nodeStmt) := by
  induction nodes with
  | nil => trivial
  | cons m rest ih => exact ⟨trivial, ih⟩

/-- The parts of a written document.  The bodies of its blocks take no more levels than the settings
allow. -/
theorem exists_parts_of_toDocument {doc : Document} (h : g.toDocument s = .ok doc) :
    ∃ (layout : List Place) (lost : List Member) (edges : List EdgeStmt),
      doc = ⟨g.header, (attrStmts g.name g.attrs).map .attr ++
        (Place.toStmts g layout ++ lost.map nodeStmt) ++ edges.map .edge⟩ ∧
      Place.bodyDepths layout ≤ s.maxDepth := by
  obtain ⟨o, edges, ho, hedges, rfl⟩ := toDocument_ok_cases h
  obtain ⟨layout, lost, hstmts, hneeds⟩ := exists_needsLevels_of_outline ho
  refine ⟨layout, lost, edges, ?_, hneeds.le_of_eq_ok ho⟩
  rw [hstmts]
  simp only [List.append_assoc]

end Graph

end DotModel
