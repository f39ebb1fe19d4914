import DotModel.Document.Tree
import DotModel.Graph.Basic

/-!
# Replaying a document

A document describes a graph: `Document.replay` builds it statement by statement, as a reader of
DOT would, with the identifiers of the document for names.
-/

namespace DotModel

/-- The attributes of a list, one set after the other. -/
def Attributes.ofAttrs (attrs : List Attr) : Attributes :=
  OrdMap.ofList (attrs.map fun a => (a.key.text, a.value.text))

/-- The attributes of the statements of a subgraph, one set after the other. -/
def Attributes.ofStmts (attrs : List AttrStmt) : Attributes :=
  OrdMap.ofList (attrs.map fun a => (a.key.text, a.value.text))

namespace Endpoint

/-- The name of the node or subgraph at this end. -/
def name : Endpoint → String
  | .node ref => ref.id.text
  | .subgraph id => id.text

/-- The port at this end. -/
def port : Endpoint → Option String
  | .node ref => ref.port
  | .subgraph _ => none

end Endpoint

/-- The edge that a statement describes. -/
def EdgeStmt.toEdge (s : EdgeStmt) : Edge :=
  (Edge.between s.src.name s.dst.name s.directed (.ofAttrs s.attrs)).withPorts s.src.port
    s.dst.port

namespace Stmt

mutual

/-- Adds to a graph what a statement in `scope` describes. -/
def replay (scope : String) (g : Graph) : Stmt → Except Error Graph
  | .attr stmt => g.addAttr scope stmt.key.text stmt.value.text
  | .node stmt => .ok (g.addNode scope stmt.node.id.text (.ofAttrs stmt.attrs))
  | .edge stmt => .ok (g.addEdge stmt.toEdge)
  | .subgraph id attrs body => do
    replayBody id.text (← g.addSubgraph scope id.text (.ofStmts attrs)) body

/-- Adds to a graph what the statements of a body in `scope` describe. -/
def replayBody (scope : String) (g : Graph) : List Stmt → Except Error Graph
  | [] => .ok g
  | s :: rest => do replayBody scope (← replay scope g s) rest

end

end Stmt

/-- The graph with the header of a document and nothing in it. -/
def Header.toGraph (h : Header) : Graph :=
  { name := (h.id.map Ident.text).getD "", directed := h.directed, strict := h.strict }

/-- The graph that a document describes. -/
def Document.replay (doc : Document) : Except Error Graph :=
  let g := doc.header.toGraph
  Stmt.replayBody g.name g doc.stmts

end DotModel
