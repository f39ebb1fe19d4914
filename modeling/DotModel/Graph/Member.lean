import DotModel.Attributes

/-!
# Members

A member of a graph is a node or a subgraph: a name with attributes.  Nodes and subgraphs are kept
in two collections of the same kind, each keyed by name in the order of declaration.
-/

namespace DotModel

/-- A node or subgraph with its attributes. -/
structure Member where
  name : String
  attrs : Attributes
  deriving DecidableEq

/-- The same name and the same attributes, in whatever order. -/
def Member.same (a b : Member) : Bool := a.name == b.name && a.attrs.same b.attrs

/-- Members by name, in the order of their declaration. -/
abbrev Members := OrdMap String Member

namespace Members

/-- Adds a member, or adds the attributes to those that it has. -/
def declare (ms : Members) (name : String) (attrs : Attributes) : Members :=
  ms.upsert name ⟨name, attrs⟩ fun old => { old with attrs := old.attrs.merge attrs }

/-- Adds a member without attributes, unless it is there already. -/
def register (ms : Members) (name : String) : Members := ms.upsert name ⟨name, ∅⟩ id

/-- Sets one attribute of a member, if there is one of that name. -/
def setAttr (ms : Members) (name key value : String) : Members :=
  ms.modify name fun old => { old with attrs := old.attrs.set key value }

/-- The members in the order of their names, those of one name in the order of declaration. -/
def sorted (ms : Members) : List Member :=
  ms.values.mergeSort fun a b => !decide (b.name < a.name)

end Members

end DotModel
