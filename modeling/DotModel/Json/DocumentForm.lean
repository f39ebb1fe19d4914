import DotModel.Document.Text
import DotModel.Error
import DotModel.Json.Value

/-!
# Documents as JSON

A statement is stored as an object with one member, whose key tells the kind of statement.
Reading refuses a document whose stored form nests more than `nestingLimit` arrays and objects.
-/

namespace DotModel

/-! ## Writing -/

def Ident.toJson (id : Ident) : Json := .str id.text

def Attr.toJson (a : Attr) : Json := .obj [("key", a.key.toJson), ("value", a.value.toJson)]

def AttrStmt.toJson (a : AttrStmt) : Json :=
  .obj [("scope", .str a.scope), ("key", a.key.toJson), ("value", a.value.toJson)]

/-- A port is left out if there is none. -/
def NodeRef.toJson (ref : NodeRef) : Json :=
  .obj (("id", ref.id.toJson) :: (ref.port.map fun p => ("port", Json.str p)).toList)

def NodeStmt.toJson (s : NodeStmt) : Json :=
  .obj [("node", s.node.toJson), ("attrs", .arr (s.attrs.map Attr.toJson))]

def Endpoint.toJson : Endpoint → Json
  | .node ref => .obj [("Node", ref.toJson)]
  | .subgraph id => .obj [("Subgraph", id.toJson)]

def EdgeStmt.toJson (s : EdgeStmt) : Json :=
  .obj [("src", s.src.toJson), ("dst", s.dst.toJson), ("directed", .bool s.directed),
    ("attrs", .arr (s.attrs.map Attr.toJson))]

namespace Stmt

mutual

def toJson : Stmt → Json
  | .attr stmt => .obj [("Attr", stmt.toJson)]
  | .node stmt => .obj [("Node", stmt.toJson)]
  | .subgraph id attrs body =>
    .obj [("Subgraph", .obj [("id", id.toJson), ("attrs", .arr (attrs.map AttrStmt.toJson)),
      ("stmts", .arr (bodyToJson body))])]
  | .edge stmt => .obj [("Edge", stmt.toJson)]

/-- The stored statements of a body. -/
def bodyToJson : List Stmt → List Json
  | [] => []
  | s :: rest => toJson s :: bodyToJson rest

end

end Stmt

def Header.toJson (h : Header) : Json :=
  .obj [("id", (h.id.map Ident.toJson).getD .null), ("directed", .bool h.directed),
    ("strict", .bool h.strict)]

def Document.toJson (doc : Document) : Json :=
  .obj [("decl", doc.header.toJson), ("stmts", .arr (Stmt.bodyToJson doc.stmts))]

/-! ## Reading -/

open Json (required optional text? bool? list?)

def Ident.ofJson? (json : Json) : Option Ident := Ident.mk <$> json.text?

def Attr.ofJson? (json : Json) : Option Attr := do
  match ← json.fields? ["key", "value"] with
  | [key, value] => some ⟨← required Ident.ofJson? key, ← required Ident.ofJson? value⟩
  | _ => none

def AttrStmt.ofJson? (json : Json) : Option AttrStmt := do
  match ← json.fields? ["scope", "key", "value"] with
  | [scope, key, value] =>
    some ⟨← required text? scope, ← required Ident.ofJson? key, ← required Ident.ofJson? value⟩
  | _ => none

def NodeRef.ofJson? (json : Json) : Option NodeRef := do
  match ← json.fields? ["id", "port"] with
  | [id, port] => some ⟨← required Ident.ofJson? id, ← optional text? port⟩
  | _ => none

def NodeStmt.ofJson? (json : Json) : Option NodeStmt := do
  match ← json.fields? ["node", "attrs"] with
  | [node, attrs] =>
    some ⟨← required NodeRef.ofJson? node, ← required (list? Attr.ofJson?) attrs⟩
  | _ => none

def Endpoint.ofJson? (json : Json) : Option Endpoint := do
  match ← json.variant? with
  | ("Node", value) => Endpoint.node <$> NodeRef.ofJson? value
  | ("Subgraph", value) => Endpoint.subgraph <$> Ident.ofJson? value
  | _ => none

def EdgeStmt.ofJson? (json : Json) : Option EdgeStmt := do
  match ← json.fields? ["src", "dst", "directed", "attrs"] with
  | [src, dst, directed, attrs] =>
    some ⟨← required Endpoint.ofJson? src, ← required Endpoint.ofJson? dst,
      ← required bool? directed, ← required (list? Attr.ofJson?) attrs⟩
  | _ => none

/-- Reads a statement in which fewer than `levels` subgraphs lie one inside the other. -/
def Stmt.ofJson? : (levels : Nat) → Json → Option Stmt
  | 0, _ => none
  | levels + 1, json => do
    match ← json.variant? with
    | ("Attr", value) => Stmt.attr <$> AttrStmt.ofJson? value
    | ("Node", value) => Stmt.node <$> NodeStmt.ofJson? value
    | ("Edge", value) => Stmt.edge <$> EdgeStmt.ofJson? value
    | ("Subgraph", value) =>
      match ← value.fields? ["id", "attrs", "stmts"] with
      | [id, attrs, stmts] =>
        some (.subgraph (← required Ident.ofJson? id)
          (← required (list? AttrStmt.ofJson?) attrs)
          (← required (list? (Stmt.ofJson? levels)) stmts))
      | _ => none
    | _ => none

def Header.ofJson? (json : Json) : Option Header := do
  match ← json.fields? ["id", "directed", "strict"] with
  | [id, directed, strict] =>
    some ⟨← optional Ident.ofJson? id, ← required bool? directed, ← required bool? strict⟩
  | _ => none

/-- How many arrays and objects a stored document may have one inside the other. -/
def nestingLimit : Nat := 127

/-- Reads a document.  A subgraph takes more than one level of nesting, so the limit holds for the
subgraphs as well. -/
def Document.ofJson? (json : Json) : Option Document := do
  match ← json.fields? ["decl", "stmts"] with
  | [decl, stmts] =>
    let doc : Document :=
      ⟨← required Header.ofJson? decl, ← required (list? (Stmt.ofJson? nestingLimit)) stmts⟩
    if doc.toJson.depth ≤ nestingLimit then some doc else none
  | _ => none

/-- The document as stored text. -/
def Document.save (doc : Document) : String := doc.toJson.pretty

/-- The document of a stored text. -/
def Document.load (text : String) : Except Error Document :=
  match Json.ofText? text >>= Document.ofJson? with
  | some doc => .ok doc
  | none => .error .unreadable

end DotModel
