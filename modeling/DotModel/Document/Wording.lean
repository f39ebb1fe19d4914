import DotModel.Document.Text

/-!
# The wording of documents

What a document says, apart from its layout: the statements with their order and nesting, and each
identifier in the form in which it is written.  A port stands as the list of its pieces, and the
scope of an attribute is left out.
-/

namespace DotModel

/-- A node, or a port of a node, as it is written. -/
structure NodeWording where
  id : String
  port : Option (List String)
  deriving DecidableEq

/-- One end of an edge as it is written. -/
inductive EndWording where
  | node (node : NodeWording)
  | subgraph (id : String)
  deriving DecidableEq

/-- A statement as it is written, with its attributes as pairs of a key and a value. -/
inductive StmtWording where
  | attr (attr : String × String)
  | node (node : NodeWording) (attrs : List (String × String))
  | subgraph (id : String) (attrs : List (String × String)) (body : List StmtWording)
  | edge (src dst : EndWording) (directed : Bool) (attrs : List (String × String))

/-- A document as it is written. -/
structure Wording where
  strict : Bool
  directed : Bool
  id : Option String
  stmts : List StmtWording

/-- The pieces of a port as they are written. -/
def portWording (port : String) : List String :=
  (Text.pieces ':' port.toList).map fun piece => String.ofList (Literal.quote piece)

def Attr.wording (a : Attr) : String × String := (a.key.toText, a.value.toText)

def AttrStmt.wording (a : AttrStmt) : String × String := (a.key.toText, a.value.toText)

def NodeRef.wording (ref : NodeRef) : NodeWording := ⟨ref.id.toText, ref.port.map portWording⟩

def Endpoint.wording : Endpoint → EndWording
  | .node ref => .node ref.wording
  | .subgraph id => .subgraph id.toText

namespace Stmt

mutual

/-- The wording of a statement. -/
def wording : Stmt → StmtWording
  | .attr stmt => .attr stmt.wording
  | .node stmt => .node stmt.node.wording (stmt.attrs.map Attr.wording)
  | .edge stmt =>
    .edge stmt.src.wording stmt.dst.wording stmt.directed (stmt.attrs.map Attr.wording)
  | .subgraph id attrs body =>
    .subgraph id.toText (attrs.map AttrStmt.wording) (bodyWording body)

/-- The wordings of the statements of a body. -/
def bodyWording : List Stmt → List StmtWording
  | [] => []
  | s :: rest => wording s :: bodyWording rest

end

end Stmt

/-- The wording of a document. -/
def Document.wording (doc : Document) : Wording where
  strict := doc.header.strict
  directed := doc.header.directed
  id := doc.header.id.map Ident.toText
  stmts := Stmt.bodyWording doc.stmts

end DotModel
