import DotModel.Error

/-!
# Settings

How graphs are written: how deep subgraphs may nest, what indents a level, and whether members are
written that the graph's own scope does not lead to.
-/

namespace DotModel

/-- The settings of a writing. -/
structure Settings where
  /-- How deep subgraphs may nest; at least one level in valid settings. -/
  maxDepth : Nat := 64
  /-- What a line is indented by, once per level. -/
  indent : String := "\t"
  /-- Whether members that cannot be reached from the graph's own scope are written. -/
  emitOrphans : Bool := true
  deriving DecidableEq

namespace Settings

instance : Inhabited Settings := ⟨{}⟩

/-- The settings, if they allow any nesting at all. -/
def validate (s : Settings) : Except Error Settings :=
  if s.maxDepth = 0 then .error (.settings .zeroDepth) else .ok s

end Settings

end DotModel
