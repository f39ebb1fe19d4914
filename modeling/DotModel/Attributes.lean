import DotModel.Ordered.Map

/-!
# Attributes

The attributes of a graph, subgraph, node or edge: names with their values, in the order in which
the names were first set.
-/

namespace DotModel

/-- Attribute values by attribute name. -/
abbrev Attributes := OrdMap String String

namespace Attributes

/-- Sets one attribute; the last value wins, the first place stays. -/
abbrev set (attrs : Attributes) (key value : String) : Attributes := attrs.insert key value

/-- Sets every attribute of `update`, in its order. -/
def merge (attrs update : Attributes) : Attributes := attrs.insertMany update.toList

/-- Whether both hold the same values under the same names, in whatever order. -/
def same (a b : Attributes) : Bool := OrdMap.sameBy (· == ·) a b

end Attributes

end DotModel
