/-!
# Errors

Why an operation on a graph, on its settings or on a stored text fails, and how that is told.
-/

namespace DotModel

/-- What is wrong with settings. -/
inductive SettingsFault where
  /-- The settings text does not follow its format. -/
  | malformed
  /-- The value that is used under `key` has not the type of the setting. -/
  | mistyped (key : String)
  /-- No nesting at all would be allowed. -/
  | zeroDepth
  /-- A fault described by the caller. -/
  | other (detail : String)
  deriving DecidableEq

/-- Why an operation fails. -/
inductive Error where
  /-- The name belongs neither to the graph nor to a registered subgraph. -/
  | unknownScope (name : String)
  /-- The subgraph contains itself. -/
  | relationCycle (name : String)
  /-- The subgraph would be nested more than `limit` levels deep. -/
  | nestingTooDeep (name : String) (limit : Nat)
  /-- An end of an edge names a port of a subgraph. -/
  | portOnSubgraph (name port : String)
  /-- The settings cannot be used. -/
  | settings (fault : SettingsFault)
  /-- A stored text does not have the expected form. -/
  | unreadable
  deriving DecidableEq

/-- The description of a fault. -/
def SettingsFault.detail : SettingsFault → String
  | .malformed => "the settings text is malformed"
  | .mistyped key => "the value of " ++ key ++ " has the wrong type"
  | .zeroDepth => "max_depth must be at least 1"
  | .other detail => detail

namespace Error

/-- The text that tells the error. -/
def message : Error → String
  | .unknownScope name => "graph or subgraph '" ++ name ++ "' does not exist"
  | .relationCycle name => "relation cycle detected at '" ++ name ++ "'"
  | .nestingTooDeep name limit =>
    "subgraph nesting under '" ++ name ++ "' exceeds the limit of " ++ toString limit
  | .portOnSubgraph name port => "subgraph '" ++ name ++ "' cannot have a port: " ++ port
  | .settings fault => "Configuration error: " ++ fault.detail
  | .unreadable => "JSON error: the text does not have the expected form"

/-- Whether the graph itself is such that it cannot be written. -/
def isStructural : Error → Bool
  | .relationCycle _ | .nestingTooDeep .. | .portOnSubgraph .. => true
  | .unknownScope _ | .settings _ | .unreadable => false

end Error

end DotModel
