import DotModel.Graph.Basic

/-!
# Changes in place

An operation of `Graph` that fails gives no graph at all.  Here the same operations run step by step
on one graph, and what a step has changed stays changed if a later step fails.  Whether an operation
is done as a whole or not at all can only be said of such a run.
-/

namespace DotModel

/-- A run on one graph.  If it fails, the graph is left as the run has changed it so far. -/
abbrev InPlace := EStateM Error Graph

namespace InPlace

/-- Sets an attribute of a scope. -/
def addAttr (scope key value : String) : InPlace Unit := do
  let g ← get
  if g.name = scope then
    set { g with attrs := g.attrs.set key value }
  else if g.isSubgraph scope then
    set { g with subgraphs := g.subgraphs.setAttr scope key value }
  else
    throw (.unknownScope scope)

/-- Sets attributes of a scope one after the other, up to the first that fails. -/
def addAttrs (scope : String) (entries : List (String × String)) : InPlace Unit :=
  entries.forM fun e => addAttr scope e.1 e.2

/-- Registers a subgraph, and then makes it a member of `parent`. -/
def register (parent name : String) : InPlace Unit := do
  modify fun g => { g with subgraphs := g.subgraphs.register name }
  modify fun g => { g with relations := g.relations.add parent name }

/-- Registers a subgraph as a member of `parent` and sets its attributes. -/
def addSubgraph (parent name : String) (attrs : Attributes) : InPlace Unit := do
  if (← get).isScope parent then
    register parent name
    addAttrs name attrs.toList
  else
    throw (.unknownScope parent)

/-- Reports the removal of a node to a sink and then removes it, with its membership in `parent`.
Nobody looks at whether the report could be written. -/
def removeTo {Sink Failure : Type} (write : Sink → String → Except Failure Unit × Sink)
    (parent name : String) : StateM (Graph × Sink) Unit := do
  modify fun s => (s.1, (write s.2 (Graph.removalNotice name)).2)
  modify fun s => (s.1.removeNode parent name, s.2)

/-- Removes every node that is the end of no edge and gives the names of these nodes. -/
def removeEdgelessTo {Sink Failure : Type} (write : Sink → String → Except Failure Unit × Sink)
    (parent : String) : StateM (Graph × Sink) (List String) := do
  let names := (← get).1.edgeless
  names.forM (removeTo write parent)
  return names

end InPlace

end DotModel
