import DotModel.Literal.Quote

/-!
# Documents

A `Document` fixes the statements of a DOT text, their nesting and their order, and leaves
spacing and punctuation to the printing.  Identifiers are kept unquoted.
-/

namespace DotModel

/-- An identifier, before quoting. -/
structure Ident where
  text : String
  deriving DecidableEq, Inhabited

namespace Ident

/-- The identifier of a graph, subgraph or node: its name, kept apart from the words for kinds of
elements. -/
def ofName (name : String) : Ident := ⟨String.ofList (Literal.disambiguate name.toList)⟩

/-- An identifier taken as it is, such as an attribute's name or value. -/
def verbatim (text : String) : Ident := ⟨text⟩

end Ident

/-- An attribute in the brackets behind a node or an edge. -/
structure Attr where
  key : Ident
  value : Ident
  deriving DecidableEq

/-- An attribute as a statement of its own.  `scope` is the name of the graph or subgraph that it
describes; the text does not show it. -/
structure AttrStmt where
  scope : String
  key : Ident
  value : Ident
  deriving DecidableEq

/-- A node, or a port of a node. -/
structure NodeRef where
  id : Ident
  port : Option String
  deriving DecidableEq

/-- The declaration of a node. -/
structure NodeStmt where
  node : NodeRef
  attrs : List Attr
  deriving DecidableEq

/-- One end of an edge: a node, or all nodes of a subgraph. -/
inductive Endpoint where
  | node (ref : NodeRef)
  | subgraph (id : Ident)
  deriving DecidableEq

/-- An edge between two ends. -/
structure EdgeStmt where
  src : Endpoint
  dst : Endpoint
  directed : Bool
  attrs : List Attr
  deriving DecidableEq

/-- A statement of a document.  A subgraph has attribute statements and a body of further
statements. -/
inductive Stmt where
  | attr (stmt : AttrStmt)
  | node (stmt : NodeStmt)
  | subgraph (id : Ident) (attrs : List AttrStmt) (body : List Stmt)
  | edge (stmt : EdgeStmt)

/-- What stands before the opening brace of a document. -/
structure Header where
  id : Option Ident
  directed : Bool
  strict : Bool
  deriving DecidableEq

/-- A whole document. -/
structure Document where
  header : Header
  stmts : List Stmt

namespace Stmt

mutual

/-- Equality of statements, decided part by part. -/
def decEq : (s t : Stmt) → Decidable (s = t)
  | .attr a, .attr b =>
    if h : a = b then isTrue (by rw [h]) else isFalse (by simpa using h)
  | .node a, .node b =>
    if h : a = b then isTrue (by rw [h]) else isFalse (by simpa using h)
  | .edge a, .edge b =>
    if h : a = b then isTrue (by rw [h]) else isFalse (by simpa using h)
  | .subgraph i as ss, .subgraph j bs ts =>
    if h : i = j ∧ as = bs then
      match decEqList ss ts with
      | isTrue hs => isTrue (by rw [h.1, h.2, hs])
      | isFalse hs => isFalse (by simp [hs])
    else isFalse fun e => h (by injection e with h₁ h₂; exact ⟨h₁, h₂⟩)
  | .attr _, .node _ | .attr _, .subgraph .. | .attr _, .edge _
  | .node _, .attr _ | .node _, .subgraph .. | .node _, .edge _
  | .subgraph .., .attr _ | .subgraph .., .node _ | .subgraph .., .edge _
  | .edge _, .attr _ | .edge _, .node _ | .edge _, .subgraph .. => isFalse (by simp)

/-- Equality of bodies, decided statement by statement. -/
def decEqList : (ss ts : List Stmt) → Decidable (ss = ts)
  | [], [] => isTrue rfl
  | [], _ :: _ => isFalse (by simp)
  | _ :: _, [] => isFalse (by simp)
  | s :: ss, t :: ts =>
    match decEq s t with
    | isTrue h =>
      match decEqList ss ts with
      | isTrue hs => isTrue (by rw [h, hs])
      | isFalse hs => isFalse (by simp [hs])
    | isFalse h => isFalse (by simp [h])

end

instance : DecidableEq Stmt := decEq

mutual

/-- The number of node statements in a statement, at every level. -/
def nodeCount : Stmt → Nat
  | .node _ => 1
  | .subgraph _ _ body => nodeCounts body
  | .attr _ | .edge _ => 0

/-- The number of node statements in a body, at every level. -/
def nodeCounts : List Stmt → Nat
  | [] => 0
  | s :: rest => nodeCount s + nodeCounts rest

end

end Stmt

deriving instance DecidableEq for Document

namespace Document

/-- The number of node statements at every level. -/
def nodeCount (doc : Document) : Nat := Stmt.nodeCounts doc.stmts

/-- The edge statements at the top level, in order. -/
def edges (doc : Document) : List EdgeStmt :=
  doc.stmts.filterMap fun
    | .edge stmt => some stmt
    | _ => none

end Document

end DotModel
