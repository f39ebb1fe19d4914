import DotModel.Attributes
import DotModel.Ordered.Buckets

/-!
# Edges

Edges join two names and need not be unique.  `Edges` keeps them in order, beside an index from
each source to its targets.
-/

namespace DotModel

/-- An edge between two names, each perhaps with a port. -/
structure Edge where
  src : String
  srcPort : Option String
  dst : String
  dstPort : Option String
  directed : Bool
  attrs : Attributes
  deriving DecidableEq

namespace Edge

/-- An edge without ports. -/
def between (src dst : String) (directed : Bool) (attrs : Attributes) : Edge :=
  ⟨src, none, dst, none, directed, attrs⟩

/-- An empty port is none. -/
def port? (port : Option String) : Option String := port.filter (· ≠ "")

/-- The edge with these ports in place of its own. -/
def withPorts (e : Edge) (srcPort dstPort : Option String) : Edge :=
  { e with srcPort := port? srcPort, dstPort := port? dstPort }

/-- Whether no port is empty, as in every edge that `withPorts` has built. -/
def IsBuilt (e : Edge) : Prop := e.srcPort ≠ some "" ∧ e.dstPort ≠ some ""

instance (e : Edge) : Decidable e.IsBuilt :=
  inferInstanceAs (Decidable (e.srcPort ≠ some "" ∧ e.dstPort ≠ some ""))

/-- The same ends, ports, direction and attributes, the attributes in whatever order. -/
def same (a b : Edge) : Bool :=
  a.src == b.src && a.srcPort == b.srcPort && a.dst == b.dst && a.dstPort == b.dstPort &&
    a.directed == b.directed && a.attrs.same b.attrs

/-- By source and then by target. -/
def le (a b : Edge) : Bool :=
  decide (a.src < b.src) || a.src == b.src && !decide (b.dst < a.dst)

end Edge

/-- The edges of a graph in order, and the targets of each source. -/
structure Edges where
  toList : List Edge
  targets : Buckets String String
  deriving DecidableEq

namespace Edges

instance : EmptyCollection Edges := ⟨⟨[], ∅⟩⟩

instance : Inhabited Edges := ⟨∅⟩

/-- Adds an edge at the end. -/
def add (es : Edges) (e : Edge) : Edges where
  toList := es.toList ++ [e]
  targets := es.targets.link e.src e.dst

/-- Adds the edges one after the other. -/
def addMany (es : Edges) (added : List Edge) : Edges := added.foldl add es

/-- The number of edges. -/
def size (es : Edges) : Nat := es.toList.length

def isEmpty (es : Edges) : Bool := es.toList.isEmpty

/-- The targets of the edges from `name`, each once, in the order of their first edge. -/
def edgesFrom (es : Edges) (name : String) : List String := es.targets.bucket name

/-- Whether an edge starts at `name`. -/
def hasSource (es : Edges) (name : String) : Bool := es.targets.contains name

/-- Whether an edge ends at `name`. -/
def hasTarget (es : Edges) (name : String) : Bool := es.targets.values.any (·.contains name)

/-- Whether `name` is an end of an edge. -/
def participates (es : Edges) (name : String) : Bool := es.hasSource name || es.hasTarget name

/-- The edges by source and target, equals in their order. -/
def sorted (es : Edges) : List Edge := es.toList.mergeSort Edge.le

end Edges

end DotModel
