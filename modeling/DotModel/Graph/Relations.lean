import DotModel.Ordered.Buckets

/-!
# Relations

Which nodes and subgraphs are direct members of which scopes.  A member may belong to several
scopes.  The relation is indexed in both directions; each query reads the index of its own
direction.
-/

namespace DotModel

/-- The membership relation, from scopes to members and from members to scopes. -/
structure Relations where
  byParent : Buckets String String
  byChild : Buckets String String
  deriving DecidableEq

namespace Relations

instance : EmptyCollection Relations := ⟨⟨∅, ∅⟩⟩

instance : Inhabited Relations := ⟨∅⟩

/-- Makes `child` a member of `parent`. -/
def add (r : Relations) (parent child : String) : Relations where
  byParent := r.byParent.link parent child
  byChild := r.byChild.link child parent

/-- Ends the membership of `child` in `parent`. -/
def remove (r : Relations) (parent child : String) : Relations where
  byParent := r.byParent.unlink parent child
  byChild := r.byChild.unlink child parent

/-- The members of a scope, in order. -/
def children (r : Relations) (parent : String) : List String := r.byParent.bucket parent

/-- The scopes of a member, in order. -/
def parents (r : Relations) (child : String) : List String := r.byChild.bucket child

/-- Whether `child` is a member of `parent`. -/
def contains (r : Relations) (parent child : String) : Bool := (r.children parent).contains child

theorem children_add (r : Relations) (p c q : String) :
    (r.add p c).children q =
      if q = p ∧ c ∉ r.children p then r.children p ++ [c] else r.children q :=
  Buckets.bucket_link r.byParent p c q

theorem children_remove (r : Relations) (p c q : String) :
    (r.remove p c).children q =
      if q = p then (r.children p).filter fun x => x ≠ c else r.children q :=
  Buckets.bucket_unlink r.byParent p c q

theorem parents_add (r : Relations) (p c d : String) :
    (r.add p c).parents d =
      if d = c ∧ p ∉ r.parents c then r.parents c ++ [p] else r.parents d :=
  Buckets.bucket_link r.byChild c p d

theorem parents_remove (r : Relations) (p c d : String) :
    (r.remove p c).parents d =
      if d = c then (r.parents c).filter fun x => x ≠ p else r.parents d :=
  Buckets.bucket_unlink r.byChild c p d

def isEmpty (r : Relations) : Bool := r.byParent.isEmpty

/-- All pairs of a scope and its member, scope by scope. -/
def pairs (r : Relations) : List (String × String) := r.byParent.pairs

/-- The same members in every scope, in whatever order. -/
def same (a b : Relations) : Bool := a.byParent.same b.byParent && a.byChild.same b.byChild

end Relations

end DotModel
