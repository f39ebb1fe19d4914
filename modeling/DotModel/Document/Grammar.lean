import DotModel.Document.Token

/-!
# The grammar of DOT

Which sequences of tokens are DOT, as far as documents go: the grammar of the language without its
statements for default attributes.  Either edge operator may stand in either kind of graph, and an
edge has two ends.
-/

namespace DotModel.Grammar

/-- `port := ':' ID [':' ID]` -/
inductive IsPort : List Token → Prop where
  | name (port : List Char) : IsPort [.colon, .ident port]
  | compass (port point : List Char) : IsPort [.colon, .ident port, .colon, .ident point]

/-- `node_id := ID [port]` -/
inductive IsNodeId : List Token → Prop where
  | plain (id : List Char) : IsNodeId [.ident id]
  | port (id : List Char) {port : List Token} : IsPort port → IsNodeId (.ident id :: port)

/-- What may stand behind an attribute in brackets: `[',' | ';']` -/
inductive IsSeparator : List Token → Prop where
  | none : IsSeparator []
  | comma : IsSeparator [.comma]
  | semicolon : IsSeparator [.semicolon]

/-- `a_list := [ID '=' ID [',' | ';'] a_list]` -/
inductive IsAttrs : List Token → Prop where
  | nil : IsAttrs []
  | cons (key value : List Char) {separator rest : List Token} :
      IsSeparator separator → IsAttrs rest →
      IsAttrs (.ident key :: .equals :: .ident value :: separator ++ rest)

/-- `[attr_list]`, where `attr_list := '[' a_list ']' [attr_list]` -/
inductive IsAttrList : List Token → Prop where
  | nil : IsAttrList []
  | cons {attrs rest : List Token} :
      IsAttrs attrs → IsAttrList rest → IsAttrList (.openBracket :: attrs ++ .closeBracket :: rest)

/-- The phrases that contain one another. -/
inductive Phrase where
  | subgraph
  | endpoint
  | stmt
  | stmts

/-- Subgraphs, the ends of edges, statements and lists of statements. -/
inductive Derives : Phrase → List Token → Prop where
  /-- `subgraph := 'subgraph' ID '{' stmt_list '}'` -/
  | subgraph (id : List Char) {body : List Token} :
      Derives .stmts body →
      Derives .subgraph (.subgraph :: .ident id :: .openBrace :: body ++ [.closeBrace])
  /-- `endpoint := node_id | subgraph` -/
  | nodeEnd {node : List Token} : IsNodeId node → Derives .endpoint node
  | subgraphEnd {block : List Token} : Derives .subgraph block → Derives .endpoint block
  /-- `stmt := ID '=' ID | node_id [attr_list] | endpoint edgeop endpoint [attr_list] | subgraph` -/
  | assignment (key value : List Char) : Derives .stmt [.ident key, .equals, .ident value]
  | node {node attrs : List Token} :
      IsNodeId node → IsAttrList attrs → Derives .stmt (node ++ attrs)
  | edge (directed : Bool) {src dst attrs : List Token} :
      Derives .endpoint src → Derives .endpoint dst → IsAttrList attrs →
      Derives .stmt (src ++ .edgeOp directed :: dst ++ attrs)
  | block {block : List Token} : Derives .subgraph block → Derives .stmt block
  /-- `stmt_list := [stmt [';'] stmt_list]` -/
  | nil : Derives .stmts []
  | cons {stmt rest : List Token} :
      Derives .stmt stmt → Derives .stmts rest → Derives .stmts (stmt ++ rest)
  | consSemicolon {stmt rest : List Token} :
      Derives .stmt stmt → Derives .stmts rest → Derives .stmts (stmt ++ .semicolon :: rest)

/-- `graph := ['strict'] ('graph' | 'digraph') [ID] '{' stmt_list '}'` -/
inductive IsGraph : List Token → Prop where
  | intro (strict directed : Bool) (id : Option (List Char)) {body : List Token} :
      Derives .stmts body →
      IsGraph ((if strict then [.strict] else []) ++ .kind directed ::
        (id.map Token.ident).toList ++ .openBrace :: body ++ [.closeBrace])

end DotModel.Grammar
