import DotModel.Graph.Writing

/-!
# Places

A document before its statements are written out: the members in their order and nesting, by name.
A subgraph has one place with its body, and is only mentioned in the others.
-/

namespace DotModel

/-- Where a member stands in a document. -/
inductive Place where
  | node (name : String)
  | body (name : String) (inside : List Place)
  | mention (name : String)

namespace Place

/-- The member that stands here. -/
def name : Place → String
  | .node name | .body name _ | .mention name => name

mutual

/-- The statement of the member that stands here. -/
def toStmt (g : Graph) : Place → Stmt
  | .node name => Graph.nodeStmt ((g.node? name).getD ⟨name, ∅⟩)
  | .body name inside =>
    .subgraph (.ofName name)
      (((g.subgraph? name).map fun sub => Graph.attrStmts name sub.attrs).getD [])
      (toStmts g inside)
  | .mention name => .subgraph (.ofName name) [] []

/-- The statements of the members in their order. -/
def toStmts (g : Graph) : List Place → List Stmt
  | [] => []
  | place :: rest => toStmt g place :: toStmts g rest

end

mutual

/-- The pairs of a scope and a member directly in it, from a place in `scope` inwards. -/
def nestings (scope : String) : Place → List (String × String)
  | .node name => [(scope, name)]
  | .body name inside => (scope, name) :: nestingsAll name inside
  | .mention name => [(scope, name)]

/-- The pairs of all places of a list that stands in `scope`. -/
def nestingsAll (scope : String) : List Place → List (String × String)
  | [] => []
  | place :: rest => nestings scope place ++ nestingsAll scope rest

end

mutual

/-- A place and all places within it, in the order of the document. -/
def flatten : Place → List Place
  | .node name => [.node name]
  | .body name inside => .body name inside :: flattenAll inside
  | .mention name => [.mention name]

/-- All places of a list and within it, in the order of the document. -/
def flattenAll : List Place → List Place
  | [] => []
  | place :: rest => flatten place ++ flattenAll rest

end

mutual

/-- The nodes that stand at a place and within it, the latest first. -/
def written (g : Graph) : Place → List String
  | .node name => [((g.node? name).getD ⟨name, ∅⟩).name]
  | .body _ inside => writtenAll g inside
  | .mention _ => []

/-- The nodes that stand at all places of a list and within it, the latest first. -/
def writtenAll (g : Graph) : List Place → List String
  | [] => []
  | place :: rest => writtenAll g rest ++ written g place

end

/-- Whether this is a block, empty or not, of the subgraph. -/
def isBlockOf (sub : String) : Place → Bool
  | .node _ => false
  | .body name _ | .mention name => name == sub

@[simp] theorem toStmts_nil (g : Graph) : toStmts g [] = [] := rfl

@[simp] theorem toStmts_cons (g : Graph) (place : Place) (rest : List Place) :
    toStmts g (place :: rest) = toStmt g place :: toStmts g rest := rfl

theorem toStmts_eq_map (g : Graph) (places : List Place) :
    toStmts g places = places.map (toStmt g) := by
  induction places with
  | nil => rfl
  | cons place rest ih => rw [toStmts_cons, ih, List.map_cons]

theorem toStmts_append (g : Graph) (places rest : List Place) :
    toStmts g (places ++ rest) = toStmts g places ++ toStmts g rest := by
  simp only [toStmts_eq_map, List.map_append]

@[simp] theorem writtenAll_nil (g : Graph) : writtenAll g [] = [] := rfl

@[simp] theorem writtenAll_cons (g : Graph) (place : Place) (rest : List Place) :
    writtenAll g (place :: rest) = writtenAll g rest ++ written g place := rfl

@[simp] theorem nestingsAll_nil (scope : String) : nestingsAll scope [] = [] := rfl

@[simp] theorem nestingsAll_cons (scope : String) (place : Place) (rest : List Place) :
    nestingsAll scope (place :: rest) = nestings scope place ++ nestingsAll scope rest := rfl

@[simp] theorem flattenAll_nil : flattenAll [] = [] := rfl

@[simp] theorem flattenAll_cons (place : Place) (rest : List Place) :
    flattenAll (place :: rest) = flatten place ++ flattenAll rest := rfl

end Place

end DotModel
