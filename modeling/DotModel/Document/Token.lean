import DotModel.Document.Tree
import DotModel.Text.Pieces

/-!
# DOT tokens

The tokens that a document consists of, whatever the spacing of its text: keywords, identifiers in
their quoted form, edge operators and punctuation.
-/

namespace DotModel

/-- A token of DOT. -/
inductive Token where
  | keyword (word : List Char)
  | ident (text : List Char)
  | edgeOp (directed : Bool)
  | openBrace
  | closeBrace
  | openBracket
  | closeBracket
  | equals
  | semicolon
  | colon
  | comma
  deriving DecidableEq

namespace Token

def strict : Token := .keyword ['s', 't', 'r', 'i', 'c', 't']

/-- The keyword that begins a graph with or without directions. -/
def kind (directed : Bool) : Token :=
  if directed then .keyword ['d', 'i', 'g', 'r', 'a', 'p', 'h']
  else .keyword ['g', 'r', 'a', 'p', 'h']

def subgraph : Token := .keyword ['s', 'u', 'b', 'g', 'r', 'a', 'p', 'h']

/-- The token of a text that is used as an identifier. -/
def quoted (text : List Char) : Token := .ident (Literal.quote text)

end Token

def Ident.token (id : Ident) : Token := .quoted id.text.toList

/-- The tokens of a port behind its node. -/
def portTokens (port : String) : List Token :=
  (Text.pieces ':' port.toList).flatMap fun piece => [.colon, .quoted piece]

def NodeRef.tokens (ref : NodeRef) : List Token :=
  ref.id.token :: (ref.port.map portTokens).getD []

def Endpoint.tokens : Endpoint → List Token
  | .node ref => ref.tokens
  | .subgraph id => [.subgraph, id.token, .openBrace, .closeBrace]

def Attr.tokens (a : Attr) : List Token := [a.key.token, .equals, a.value.token]

/-- The tokens of attributes in brackets; none if there are no attributes. -/
def Attr.listTokens : List Attr → List Token
  | [] => []
  | a :: rest =>
    .openBracket :: (a.tokens ++ (rest.flatMap fun b => .comma :: b.tokens) ++ [.closeBracket])

def AttrStmt.tokens (a : AttrStmt) : List Token :=
  [a.key.token, .equals, a.value.token, .semicolon]

def NodeStmt.tokens (s : NodeStmt) : List Token :=
  s.node.tokens ++ Attr.listTokens s.attrs ++ [.semicolon]

def EdgeStmt.tokens (s : EdgeStmt) : List Token :=
  s.src.tokens ++ .edgeOp s.directed :: s.dst.tokens ++ Attr.listTokens s.attrs ++ [.semicolon]

namespace Stmt

mutual

/-- The tokens of a statement. -/
def tokens : Stmt → List Token
  | .attr stmt => stmt.tokens
  | .node stmt => stmt.tokens
  | .edge stmt => stmt.tokens
  | .subgraph id attrs body =>
    [.subgraph, id.token, .openBrace] ++ attrs.flatMap AttrStmt.tokens ++ bodyTokens body ++
      [.closeBrace]

/-- The tokens of a body. -/
def bodyTokens : List Stmt → List Token
  | [] => []
  | s :: rest => tokens s ++ bodyTokens rest

end

end Stmt

def Header.tokens (h : Header) : List Token :=
  (if h.strict then [.strict] else []) ++ .kind h.directed :: (h.id.map Ident.token).toList

/-- The tokens of a document. -/
def Document.tokens (doc : Document) : List Token :=
  doc.header.tokens ++ .openBrace :: Stmt.bodyTokens doc.stmts ++ [.closeBrace]

end DotModel
