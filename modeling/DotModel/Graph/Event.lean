import DotModel.Graph.Command
import DotModel.Graph.Writing

/-!
# Events

What an operation on a graph reports about itself, beside its result.
-/

namespace DotModel

/-- A report of an operation. -/
inductive Event where
  /-- A subgraph was registered with this number of attributes. -/
  | registered (subgraph parent : String) (attrs : Nat)
  /-- A node without edges is removed. -/
  | removedEdgeless (node parent : String)
  /-- Subgraphs that the graph's own scope does not reach were written. -/
  | wroteOrphans (graph : String) (blocks : Nat)
  /-- A document was written, with this number of statements before its edges. -/
  | wroteDocument (graph : String) (stmts edges : Nat)
  /-- The graph cannot be written. -/
  | writeFailed (graph : String) (error : Error)
  deriving DecidableEq

namespace Event

/-- One field of a report. -/
def field (name value : String) : String := " " ++ name ++ "=" ++ value

/-- The report as one line: its level, its text and its fields. -/
def line : Event → String
  | .registered subgraph parent attrs =>
    "DEBUG Registered subgraph" ++ field "subgraph" subgraph ++ field "parent" parent ++
      field "attrs" (toString attrs)
  | .removedEdgeless node parent =>
    "INFO Removing edgeless node" ++ field "node" node ++ field "parent" parent
  | .wroteOrphans graph blocks =>
    "DEBUG Wrote unreachable subgraphs" ++ field "graph" graph ++
      field "blocks" (toString blocks)
  | .wroteDocument graph stmts edges =>
    "DEBUG Wrote syntax tree" ++ field "graph" graph ++ field "stmts" (toString stmts) ++
      field "edges" (toString edges)
  | .writeFailed graph error =>
    "WARN Failed to write syntax tree" ++ field "graph" graph ++ field "error" error.message

end Event

namespace Graph

/-- What a command reports; a command that fails reports nothing. -/
def events (g : Graph) (c : Command) : List Event :=
  match g.apply c with
  | .error _ => []
  | .ok _ =>
    match c with
    | .addSubgraph parent name attrs => [.registered name parent attrs.size]
    | .removeEdgeless parent => g.edgeless.map fun name => .removedEdgeless name parent
    | _ => []

/-- What writing the graph as a document reports. -/
def writingEvents (g : Graph) (s : Settings) : List Event :=
  match g.outline s with
  | .error e => [.writeFailed g.name e]
  | .ok o =>
    (if o.orphanBlocks.isEmpty then [] else [.wroteOrphans g.name o.orphanBlocks.length]) ++
      match g.edgeStmts with
      | .error e => [.writeFailed g.name e]
      | .ok es => [.wroteDocument g.name o.stmts.length es.length]

end Graph

end DotModel
