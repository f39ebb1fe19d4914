import DotModel.Graph.Basic
import DotModel.Json.Value

/-!
# Graphs as JSON

A graph is stored as an object of its parts, with maps as objects and sets as arrays, both in their
order.  Reading takes a stored graph as it is: keys need not be the names of what they hold, and
indexes need not agree with each other.
-/

namespace DotModel

/-! ## Writing -/

/-- A map as an object. -/
def OrdMap.toJson {ν : Type} (write : ν → Json) (m : OrdMap String ν) : Json :=
  .obj (m.toList.map fun e => (e.1, write e.2))

/-- A set as an array. -/
def OrdSet.toJson (s : OrdSet String) : Json := .arr (s.toList.map .str)

def Attributes.toJson (attrs : Attributes) : Json := OrdMap.toJson .str attrs

def Buckets.toJson (b : Buckets String String) : Json := OrdMap.toJson OrdSet.toJson b

def Member.toJson (m : Member) : Json :=
  .obj [("name", .str m.name), ("attrs", m.attrs.toJson)]

def Members.toJson (ms : Members) : Json := OrdMap.toJson Member.toJson ms

/-- A port is left out if there is none. -/
def portMember (key : String) (port : Option String) : List (String × Json) :=
  (port.map fun p => (key, Json.str p)).toList

def Edge.toJson (e : Edge) : Json :=
  .obj ([("src", .str e.src)] ++ portMember "src_port" e.srcPort ++
    [("dst", .str e.dst)] ++ portMember "dst_port" e.dstPort ++
    [("directed", .bool e.directed), ("attrs", e.attrs.toJson)])

def Edges.toJson (es : Edges) : Json :=
  .obj [("edges", .arr (es.toList.map Edge.toJson)), ("src_to_dsts", es.targets.toJson)]

def Relations.toJson (r : Relations) : Json :=
  .obj [("parent_to_children", r.byParent.toJson), ("child_to_parents", r.byChild.toJson)]

def Graph.toJson (g : Graph) : Json :=
  .obj [("name", .str g.name), ("directed", .bool g.directed), ("strict", .bool g.strict),
    ("attrs", g.attrs.toJson), ("nodes", .obj [("lookup", g.nodes.toJson)]),
    ("edges", g.edges.toJson), ("subgraphs", .obj [("subgraphs", g.subgraphs.toJson)]),
    ("relations", g.relations.toJson)]

/-! ## Reading -/

open Json (required optional text? bool? list?)

def OrdMap.ofJson? {ν : Type} (read : Json → Option ν) (json : Json) : Option (OrdMap String ν) :=
  OrdMap.ofList <$> json.members? read

def OrdSet.ofJson? (json : Json) : Option (OrdSet String) :=
  OrdSet.ofList <$> json.list? Json.text?

def Attributes.ofJson? (json : Json) : Option Attributes := OrdMap.ofJson? text? json

def Buckets.ofJson? (json : Json) : Option (Buckets String String) :=
  OrdMap.ofJson? OrdSet.ofJson? json

def Member.ofJson? (json : Json) : Option Member := do
  match ← json.fields? ["name", "attrs"] with
  | [name, attrs] => some ⟨← required text? name, ← required Attributes.ofJson? attrs⟩
  | _ => none

def Members.ofJson? (json : Json) : Option Members := OrdMap.ofJson? Member.ofJson? json

def Edge.ofJson? (json : Json) : Option Edge := do
  match ← json.fields? ["src", "src_port", "dst", "dst_port", "directed", "attrs"] with
  | [src, srcPort, dst, dstPort, directed, attrs] =>
    some ⟨← required text? src, ← optional text? srcPort, ← required text? dst,
      ← optional text? dstPort, ← required bool? directed, ← required Attributes.ofJson? attrs⟩
  | _ => none

def Edges.ofJson? (json : Json) : Option Edges := do
  match ← json.fields? ["edges", "src_to_dsts"] with
  | [edges, targets] =>
    some ⟨← required (list? Edge.ofJson?) edges, ← required Buckets.ofJson? targets⟩
  | _ => none

def Relations.ofJson? (json : Json) : Option Relations := do
  match ← json.fields? ["parent_to_children", "child_to_parents"] with
  | [byParent, byChild] =>
    some ⟨← required Buckets.ofJson? byParent, ← required Buckets.ofJson? byChild⟩
  | _ => none

/-- Members inside of an object with one field. -/
def Members.ofWrapped? (key : String) (json : Json) : Option Members := do
  match ← json.fields? [key] with
  | [members] => required Members.ofJson? members
  | _ => none

def Graph.ofJson? (json : Json) : Option Graph := do
  match ← json.fields?
      ["name", "directed", "strict", "attrs", "nodes", "edges", "subgraphs", "relations"] with
  | [name, directed, strict, attrs, nodes, edges, subgraphs, relations] =>
    some {
      name := ← required text? name
      directed := ← required bool? directed
      strict := ← required bool? strict
      attrs := ← required Attributes.ofJson? attrs
      nodes := ← required (Members.ofWrapped? "lookup") nodes
      edges := ← required Edges.ofJson? edges
      subgraphs := ← required (Members.ofWrapped? "subgraphs") subgraphs
      relations := ← required Relations.ofJson? relations }
  | _ => none

/-- The graph as stored text. -/
def Graph.save (g : Graph) : String := g.toJson.compact

/-- The graph of a stored text. -/
def Graph.load (text : String) : Except Error Graph :=
  match Json.ofText? text >>= Graph.ofJson? with
  | some g => .ok g
  | none => .error .unreadable

end DotModel
