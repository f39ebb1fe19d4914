import DotModel.Graph.Member
import DotModel.Graph.Edge
import DotModel.Graph.Relations
import DotModel.Error

/-!
# Graphs

A graph has a name, a kind, attributes, nodes, edges and subgraphs.  Which scope holds which
member is a relation beside them, so a node may stand in several subgraphs.  Edges may name nodes
that were never declared, and relations may name members that are gone.

A *scope* is the graph itself, by its name, or a registered subgraph.
-/

namespace DotModel

/-- A graph with everything in it. -/
structure Graph where
  name : String := ""
  directed : Bool := false
  strict : Bool := false
  attrs : Attributes := ∅
  nodes : Members := ∅
  edges : Edges := ∅
  subgraphs : Members := ∅
  relations : Relations := ∅
  deriving DecidableEq

/-- A node that brings edges along, for instance to what it depends on. -/
structure Item where
  name : String
  attrs : Attributes
  edges : List Edge

namespace Graph

/-- The graph without name, members and edges. -/
def empty : Graph := {}

instance : Inhabited Graph := ⟨empty⟩

/-! ## Queries -/

/-- Whether a node is declared under this name. -/
def isNode (g : Graph) (name : String) : Bool := g.nodes.contains name

/-- Whether a subgraph is registered under this name. -/
def isSubgraph (g : Graph) (name : String) : Bool := g.subgraphs.contains name

/-- The node declared under this name. -/
def node? (g : Graph) (name : String) : Option Member := g.nodes.find? name

/-- The subgraph registered under this name. -/
def subgraph? (g : Graph) (name : String) : Option Member := g.subgraphs.find? name

/-- Whether the name is that of the graph or of a registered subgraph. -/
def isScope (g : Graph) (name : String) : Bool := g.name == name || g.isSubgraph name

/-- The members of a scope, in order. -/
def children (g : Graph) (scope : String) : List String := g.relations.children scope

/-! ## Header -/

def setName (g : Graph) (name : String) : Graph := { g with name }

def setDirected (g : Graph) (directed : Bool) : Graph := { g with directed }

def setStrict (g : Graph) (strict : Bool) : Graph := { g with strict }

/-! ## Edges -/

/-- Adds an edge; its ends are not declared by that. -/
def addEdge (g : Graph) (e : Edge) : Graph := { g with edges := g.edges.add e }

/-- Adds the edges one after the other. -/
def addEdges (g : Graph) (added : List Edge) : Graph := { g with edges := g.edges.addMany added }

/-! ## Nodes -/

/-- Declares a node as a member of `parent`.  A node that is there already gets the attributes in
addition. -/
def addNode (g : Graph) (parent name : String) (attrs : Attributes) : Graph :=
  { g with
    nodes := g.nodes.declare name attrs
    relations := g.relations.add parent name }

/-- Removes a node and its membership in `parent`.  Its edges stay. -/
def removeNode (g : Graph) (parent name : String) : Graph :=
  { g with
    nodes := g.nodes.erase name
    relations := g.relations.remove parent name }

/-- Declares a node and adds its edges. -/
def addItem (g : Graph) (parent : String) (item : Item) : Graph :=
  (g.addNode parent item.name item.attrs).addEdges item.edges

/-- Adds the items one after the other. -/
def addItems (g : Graph) (parent : String) (items : List Item) : Graph :=
  items.foldl (·.addItem parent) g

/-- The names of the nodes that are the end of no edge, in the order of declaration. -/
def edgeless (g : Graph) : List String :=
  (g.nodes.values.map Member.name).filter fun name => !g.edges.participates name

/-- The line that reports the removal of a node. -/
def removalNotice (name : String) : String := "removing the node: " ++ name ++ "\n"

/-- Removes every node that is the end of no edge, each with its membership in `parent`, and
reports each to a sink.  A sink is any state with a way to write to it; one whose writes fail is
one that they leave as it is. -/
def removeEdgelessTo {Sink : Type} (write : Sink → String → Sink) (g : Graph) (parent : String)
    (sink : Sink) : Graph × Sink :=
  g.edgeless.foldl
    (fun acc name => (acc.1.removeNode parent name, write acc.2 (removalNotice name))) (g, sink)

/-- Removes every node that is the end of no edge, without a report. -/
def removeEdgeless (g : Graph) (parent : String) : Graph :=
  (g.removeEdgelessTo (fun _ _ => ()) parent ()).1

/-! ## Scopes -/

/-- Sets an attribute of a scope. -/
def addAttr (g : Graph) (scope key value : String) : Except Error Graph :=
  if g.name = scope then
    .ok { g with attrs := g.attrs.set key value }
  else if g.isSubgraph scope then
    .ok { g with subgraphs := g.subgraphs.setAttr scope key value }
  else
    .error (.unknownScope scope)

/-- Sets attributes of a scope one after the other, up to the first that fails. -/
def addAttrs (g : Graph) (scope : String) : List (String × String) → Except Error Graph
  | [] => .ok g
  | (key, value) :: rest => do (← g.addAttr scope key value).addAttrs scope rest

/-- Registers a subgraph as a member of `parent` and sets its attributes.  One that is there
already gets the attributes in addition. -/
def addSubgraph (g : Graph) (parent name : String) (attrs : Attributes) : Except Error Graph :=
  if g.isScope parent then
    addAttrs
      { g with
        subgraphs := g.subgraphs.register name
        relations := g.relations.add parent name }
      name attrs.toList
  else
    .error (.unknownScope parent)

end Graph

end DotModel
