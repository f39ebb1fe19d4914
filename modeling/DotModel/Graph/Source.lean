import DotModel.Graph.Basic

/-!
# Sources of edges

Whatever can list edges can give them to a graph: a list itself, a set of edges, an item, or another
graph.  So a graph can also be given its own edges once more.  An edge that is added alone with
ports gets them from `Edge.withPorts`; a source gives its edges as they are.
-/

namespace DotModel

/-- What can list edges. -/
inductive EdgeSource where
  | list (edges : List Edge)
  | set (es : Edges)
  | item (item : Item)
  | graph (g : Graph)

/-- The edges of a source in the order in which they should be added. -/
def EdgeSource.edgeList : EdgeSource → List Edge
  | .list edges => edges
  | .set es => es.toList
  | .item i => i.edges
  | .graph g => g.edges.toList

namespace Graph

/-- Adds an edge with ports; an empty port is none. -/
def addPortEdge (g : Graph) (src : String) (srcPort : Option String) (dst : String)
    (dstPort : Option String) (directed : Bool) (attrs : Attributes) : Graph :=
  g.addEdge ((Edge.between src dst directed attrs).withPorts srcPort dstPort)

/-- Adds the edges of a source. -/
def addEdgesFrom (g : Graph) (source : EdgeSource) : Graph := g.addEdges source.edgeList

end Graph

end DotModel
