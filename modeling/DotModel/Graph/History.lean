import DotModel.Graph.Command
import DotModel.Json.GraphForm

/-!
# Histories

What happens to a graph in the course of time: commands, some of which may fail, and between them
the graph may be stored and read again from its own text.  A graph is *reachable* if some history
leads to it from the empty graph.
-/

namespace DotModel

/-- Something that happens to a graph. -/
inductive Occurrence where
  | command (c : Command)
  | reload

namespace Occurrence

/-- The edges that an occurrence adds to a graph that has some of its own. -/
def adds (own : List Edge) : Occurrence → List Edge
  | .command c => c.adds own
  | .reload => []

/-- The edges that one thing after the other adds to a graph without edges. -/
def addsAll (os : List Occurrence) : List Edge := os.foldl (fun own o => own ++ o.adds own) []

end Occurrence

namespace Graph

/-- The graph that is read from the graph's own stored text. -/
def reload (g : Graph) : Graph :=
  match load g.save with
  | .ok g' => g'
  | .error _ => g

/-- The graph after something has happened to it. -/
def undergo (g : Graph) : Occurrence → Graph
  | .command c => g.perform c
  | .reload => g.reload

/-- The graph after one thing after the other has happened to it. -/
def undergoAll (g : Graph) (os : List Occurrence) : Graph := os.foldl undergo g

/-- The graph after a sequence of commands. -/
def performAll (g : Graph) (cs : List Command) : Graph := g.undergoAll (cs.map .command)

/-- Some history leads from the empty graph to this one. -/
def Reachable (g : Graph) : Prop := ∃ os : List Occurrence, empty.undergoAll os = g

end Graph

end DotModel
