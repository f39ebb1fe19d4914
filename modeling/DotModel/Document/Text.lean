import DotModel.Document.Tree
import DotModel.Text.Pieces

/-!
# Document text

The DOT text of a document: one statement a line, indented once per level of nesting.
-/

namespace DotModel

/-- The identifier as it stands in the text, quoted where it has to be. -/
def Ident.toText (id : Ident) : String := String.ofList (Literal.quote id.text.toList)

/-- An attribute is written as `key=value`. -/
def Attr.toText (a : Attr) : String := a.key.toText ++ "=" ++ a.value.toText

/-- The attributes in brackets behind a node or an edge; nothing if there are none. -/
def Attr.listToText : List Attr → String
  | [] => ""
  | attrs => " [" ++ String.intercalate ", " (attrs.map Attr.toText) ++ "]"

/-- An attribute statement is written as `key=value`; its scope does not show. -/
def AttrStmt.toText (a : AttrStmt) : String := a.key.toText ++ "=" ++ a.value.toText

/-- A port behind its node: each of its pieces, a compass point among them, after a colon. -/
def portToText (port : String) : String :=
  String.join ((Text.pieces ':' port.toList).map fun piece =>
    ":" ++ String.ofList (Literal.quote piece))

/-- The node with its port. -/
def NodeRef.toText (ref : NodeRef) : String :=
  ref.id.toText ++ (ref.port.map portToText).getD ""

/-- A subgraph at the end of an edge is written with an empty body. -/
def Endpoint.toText : Endpoint → String
  | .node ref => ref.toText
  | .subgraph id => "subgraph " ++ id.toText ++ " \x7b\x7d"

/-- A node with its attributes. -/
def NodeStmt.toText (s : NodeStmt) : String := s.node.toText ++ Attr.listToText s.attrs

/-- The arrow of an edge with a direction, the line of one without. -/
def edgeOperator (directed : Bool) : String := if directed then "->" else "--"

/-- The ends of an edge around its operator, with its attributes. -/
def EdgeStmt.toText (s : EdgeStmt) : String :=
  s.src.toText ++ " " ++ edgeOperator s.directed ++ " " ++ s.dst.toText ++ Attr.listToText s.attrs

/-- The header: `strict` or nothing, the kind of graph, and its identifier if it has one. -/
def Header.toText (h : Header) : String :=
  (if h.strict then "strict " else "") ++ (if h.directed then "digraph" else "graph") ++
    (h.id.map fun id => " " ++ id.toText).getD ""

/-- The indentation of the given level. -/
def indentation (indent : String) (level : Nat) : String :=
  String.join (List.replicate level indent)

/-- One indented line that ends with a semicolon. -/
def stmtLine (indent : String) (level : Nat) (text : String) : String :=
  indentation indent level ++ text ++ ";\n"

namespace Stmt

mutual

/-- The lines of one statement. -/
def toText (indent : String) (level : Nat) : Stmt → String
  | .attr stmt => stmtLine indent level stmt.toText
  | .node stmt => stmtLine indent level stmt.toText
  | .edge stmt => stmtLine indent level stmt.toText
  | .subgraph id attrs body =>
    indentation indent level ++ "subgraph " ++ id.toText ++ " \x7b\n" ++
      String.join (attrs.map fun a => stmtLine indent (level + 1) a.toText) ++
      bodyToText indent (level + 1) body ++
      indentation indent level ++ "\x7d\n"

/-- The lines of a body. -/
def bodyToText (indent : String) (level : Nat) : List Stmt → String
  | [] => ""
  | s :: rest => toText indent level s ++ bodyToText indent level rest

end

end Stmt

/-- The text of a document, with `indent` once per level. -/
def Document.toText (doc : Document) (indent : String) : String :=
  doc.header.toText ++ " \x7b\n" ++ Stmt.bodyToText indent 1 doc.stmts ++ "\x7d\n"

/-- The indentation of a document where none is asked for. -/
def defaultIndent : String := "\t"

end DotModel
