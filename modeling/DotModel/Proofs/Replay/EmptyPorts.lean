import DotModel.Proofs.Writing.Steps
import DotModel.Proofs.Writing.Place

/-!
# Empty ports

An edge that is given to a graph as it is, and not by its ends and its ports, may have a port with
an empty text.  Such a port is written, and whoever reads the document takes it for none.  Nothing
else is lost of an edge between a graph and what is read from its document.
-/

namespace DotModel

theorem map_eq_self_iff {α : Type} {f : α → α} {xs : List α} :
    xs.map f = xs ↔ ∀ x ∈ xs, f x = x := by
  have hid : xs.map f = xs.map id ↔ ∀ x ∈ xs, f x = x := List.map_inj_left
  rwa [List.map_id] at hid

namespace Edge

theorem port?_ne_empty (port : Option String) : port? port ≠ some "" := by
  cases port with
  | none => simp [port?]
  | some text => simp [port?, Option.filter_eq_some_iff]

theorem port?_eq_self_iff {port : Option String} : port? port = port ↔ port ≠ some "" := by
  constructor
  · exact fun h heq => port?_ne_empty port (h.trans heq)
  · intro h
    cases port with
    | none => rfl
    | some text =>
        have htext : text ≠ "" := fun heq => h (congrArg some heq)
        simp [port?, Option.filter, htext]

/-- The edge without its empty ports. -/
def withoutEmptyPorts (e : Edge) : Edge := e.withPorts e.srcPort e.dstPort

theorem withoutEmptyPorts_eq_self_iff {e : Edge} : e.withoutEmptyPorts = e ↔ e.IsBuilt := by
  rw [IsBuilt, ← port?_eq_self_iff, ← port?_eq_self_iff]
  cases e
  simp [withoutEmptyPorts, withPorts]

theorem map_withoutEmptyPorts_eq_self_iff {edges : List Edge} :
    edges.map withoutEmptyPorts = edges ↔ ∀ e ∈ edges, e.IsBuilt := by
  simp only [map_eq_self_iff, withoutEmptyPorts_eq_self_iff]

end Edge

/-- The end without its port, if that is empty. -/
def Endpoint.withoutEmptyPort : Endpoint → Endpoint
  | .node ref => .node { ref with port := Edge.port? ref.port }
  | .subgraph id => .subgraph id

theorem Endpoint.withoutEmptyPort_eq_self_iff {e : Endpoint} :
    e.withoutEmptyPort = e ↔ e.port ≠ some "" := by
  cases e with
  | node ref =>
      rw [port, ← Edge.port?_eq_self_iff]
      cases ref
      simp [withoutEmptyPort]
  | subgraph id => simp [withoutEmptyPort, port]

namespace EdgeStmt

/-- The statement without its empty ports. -/
def withoutEmptyPorts (s : EdgeStmt) : EdgeStmt :=
  { s with src := s.src.withoutEmptyPort, dst := s.dst.withoutEmptyPort }

theorem withoutEmptyPorts_eq_self_iff {s : EdgeStmt} :
    s.withoutEmptyPorts = s ↔ s.src.port ≠ some "" ∧ s.dst.port ≠ some "" := by
  rw [← Endpoint.withoutEmptyPort_eq_self_iff, ← Endpoint.withoutEmptyPort_eq_self_iff]
  cases s
  simp [withoutEmptyPorts]

end EdgeStmt

namespace Stmt

/-- The statement without its empty ports, if it is that of an edge. -/
def withoutEmptyPorts : Stmt → Stmt
  | .edge stmt => .edge stmt.withoutEmptyPorts
  | stmt => stmt

theorem map_withoutEmptyPorts_attr (attrs : List AttrStmt) :
    (attrs.map Stmt.attr).map withoutEmptyPorts = attrs.map .attr := by
  rw [List.map_map]
  rfl

theorem map_withoutEmptyPorts_toStmts (g : Graph) (places : List Place) :
    (Place.toStmts g places).map withoutEmptyPorts = Place.toStmts g places := by
  rw [Place.toStmts_eq_map, List.map_map]
  apply List.map_congr_left
  intro place _
  cases place <;> rfl

theorem map_withoutEmptyPorts_edge (edges : List EdgeStmt) :
    (edges.map Stmt.edge).map withoutEmptyPorts =
      (edges.map EdgeStmt.withoutEmptyPorts).map .edge := by
  rw [List.map_map, List.map_map]
  rfl

end Stmt

/-- The document without the empty ports of its edges, all of which stand at the top level. -/
def Document.withoutEmptyPorts (doc : Document) : Document :=
  { doc with stmts := doc.stmts.map Stmt.withoutEmptyPorts }

namespace Graph

/-- The graph without the empty ports of its edges. -/
def withoutEmptyPorts (g : Graph) : Graph :=
  { g with edges := .addMany ∅ (g.edges.toList.map Edge.withoutEmptyPorts) }

variable {g : Graph}

theorem map_edgeStmts_withoutEmptyPorts_eq_self_iff {edges : List EdgeStmt}
    (h : g.edgeStmts = .ok edges) :
    edges.map EdgeStmt.withoutEmptyPorts = edges ↔ ∀ e ∈ g.edges.toList, e.IsBuilt := by
  have hports : edges.map (fun s => (s.src.port, s.dst.port)) =
      g.edges.toList.map fun e => (e.srcPort, e.dstPort) := by
    refine map_eq_map_of_mapM_ok h ?_
    intro e _ stmt hstmt
    obtain ⟨src, dst, hsrc, hdst, rfl⟩ := edgeStmt_ok_cases hstmt
    rw [(name_and_port_of_endpoint hsrc).2, (name_and_port_of_endpoint hdst).2]
  have hall : (∀ p ∈ edges.map fun s => (s.src.port, s.dst.port),
      p.1 ≠ some "" ∧ p.2 ≠ some "") ↔ ∀ e ∈ g.edges.toList, e.IsBuilt := by
    rw [hports, List.forall_mem_map]
    rfl
  rw [← hall, List.forall_mem_map]
  simp only [map_eq_self_iff, EdgeStmt.withoutEmptyPorts_eq_self_iff]

end Graph

end DotModel
