import DotModel.Graph.Source

/-!
# Commands

The changes that can be asked of a graph, as data.  A command that fails changes nothing.
-/

namespace DotModel

/-- A change of a graph. -/
inductive Command where
  | setName (name : String)
  | setDirected (directed : Bool)
  | setStrict (strict : Bool)
  | addNode (parent name : String) (attrs : Attributes)
  | removeNode (parent name : String)
  | addItem (parent : String) (item : Item)
  | addItems (parent : String) (items : List Item)
  | addEdge (edge : Edge)
  | addEdges (edges : List Edge)
  | addPortEdge (src : String) (srcPort : Option String) (dst : String) (dstPort : Option String)
      (directed : Bool) (attrs : Attributes)
  | addEdgesFrom (source : EdgeSource)
  | addOwnEdges
  | addAttr (scope key value : String)
  | addSubgraph (parent name : String) (attrs : Attributes)
  | removeEdgeless (parent : String)

/-- The edges that a command adds to a graph that has some of its own. -/
def Command.adds (own : List Edge) : Command → List Edge
  | .addItem _ item => item.edges
  | .addItems _ items => items.flatMap Item.edges
  | .addEdge edge => [edge]
  | .addEdges edges => edges
  | .addPortEdge src srcPort dst dstPort directed attrs =>
    [(Edge.between src dst directed attrs).withPorts srcPort dstPort]
  | .addEdgesFrom source => source.edgeList
  | .addOwnEdges => own
  | _ => []

namespace Graph

/-- Carries out a command. -/
def apply (g : Graph) : Command → Except Error Graph
  | .setName name => .ok (g.setName name)
  | .setDirected directed => .ok (g.setDirected directed)
  | .setStrict strict => .ok (g.setStrict strict)
  | .addNode parent name attrs => .ok (g.addNode parent name attrs)
  | .removeNode parent name => .ok (g.removeNode parent name)
  | .addItem parent item => .ok (g.addItem parent item)
  | .addItems parent items => .ok (g.addItems parent items)
  | .addEdge edge => .ok (g.addEdge edge)
  | .addEdges edges => .ok (g.addEdges edges)
  | .addPortEdge src srcPort dst dstPort directed attrs =>
    .ok (g.addPortEdge src srcPort dst dstPort directed attrs)
  | .addEdgesFrom source => .ok (g.addEdgesFrom source)
  | .addOwnEdges => .ok (g.addEdgesFrom (.graph g))
  | .addAttr scope key value => g.addAttr scope key value
  | .addSubgraph parent name attrs => g.addSubgraph parent name attrs
  | .removeEdgeless parent => .ok (g.removeEdgeless parent)

/-- The graph after a command, which is the same graph if the command fails. -/
def perform (g : Graph) (c : Command) : Graph :=
  match g.apply c with
  | .ok g' => g'
  | .error _ => g

end Graph

end DotModel
