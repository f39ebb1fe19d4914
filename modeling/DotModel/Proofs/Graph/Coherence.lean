import DotModel.Graph.Command
import DotModel.Proofs.Graph.Scope

/-!
# Coherence

The collections of a graph that has come about by commands fit together: members are filed under
their own names, and the relation says the same in both directions.  A graph read from a stored text
need not be coherent.
-/

namespace DotModel

/-- Every member is filed under its own name. -/
def Members.Named (ms : Members) : Prop :=
  ∀ k m, ms.find? k = some m → m.name = k

/-- Both indexes hold the same pairs. -/
def Relations.Mutual (r : Relations) : Prop :=
  ∀ p c, p ∈ r.parents c ↔ c ∈ r.children p

/-- The collections of the graph fit together. -/
structure Graph.Coherent (g : Graph) : Prop where
  nodes : g.nodes.Named
  subgraphs : g.subgraphs.Named
  relations : g.relations.Mutual

namespace Members

theorem Named.upsert {ms : Members} (h : ms.Named) {name : String} {fresh : Member}
    {change : Member → Member} (hfresh : fresh.name = name)
    (hchange : ∀ m, (change m).name = m.name) :
    Named (OrdMap.upsert ms name fresh change) := by
  intro k m hm
  rw [OrdMap.find?_upsert] at hm
  by_cases hk : k = name
  · rw [if_pos hk] at hm
    subst hk
    cases hold : ms.find? k with
    | none =>
        rw [hold] at hm
        cases hm
        exact hfresh
    | some old =>
        rw [hold] at hm
        cases hm
        exact (hchange old).trans (h k old hold)
  · rw [if_neg hk] at hm
    exact h k m hm

theorem Named.declare {ms : Members} (h : ms.Named) (name : String) (attrs : Attributes) :
    (ms.declare name attrs).Named :=
  h.upsert rfl fun _ => rfl

theorem Named.register {ms : Members} (h : ms.Named) (name : String) :
    (ms.register name).Named :=
  h.upsert rfl fun _ => rfl

theorem Named.setAttr {ms : Members} (h : ms.Named) (name key value : String) :
    (ms.setAttr name key value).Named := by
  intro k m hm
  rw [Members.setAttr, OrdMap.find?_modify] at hm
  by_cases hk : k = name
  · rw [if_pos hk, Option.map_eq_some_iff] at hm
    obtain ⟨old, hold, rfl⟩ := hm
    exact h k old hold
  · rw [if_neg hk] at hm
    exact h k m hm

theorem Named.erase {ms : Members} (h : ms.Named) (name : String) :
    Named (OrdMap.erase ms name) := by
  intro k m hm
  rw [OrdMap.find?_erase] at hm
  by_cases hk : k = name
  · simp [hk] at hm
  · rw [if_neg hk] at hm
    exact h k m hm

theorem Named.declareAll {ms : Members} (h : ms.Named) (decls : List (String × Attributes)) :
    (ms.declareAll decls).Named := by
  induction decls generalizing ms with
  | nil => exact h
  | cons d rest ih => exact ih (h.declare d.1 d.2)

theorem Named.map_name_values {ms : Members} (h : ms.Named) :
    ms.values.map Member.name = ms.keys := by
  rw [OrdMap.values, OrdMap.keys, List.map_map]
  apply List.map_congr_left
  intro e he
  exact h e.1 e.2 (OrdMap.find?_eq_some_iff.mpr he)

end Members

namespace Relations

theorem Mutual.add {r : Relations} (h : r.Mutual) (p c : String) : (r.add p c).Mutual := by
  intro q d
  rw [mem_parents_add, mem_children_add, h q d]

theorem Mutual.remove {r : Relations} (h : r.Mutual) (p c : String) :
    (r.remove p c).Mutual := by
  intro q d
  rw [mem_parents_remove, mem_children_remove, h q d]

theorem Mutual.addAll {r : Relations} (h : r.Mutual) (pairs : List (String × String)) :
    (r.addAll pairs).Mutual := by
  induction pairs generalizing r with
  | nil => exact h
  | cons e rest ih => exact ih (h.add e.1 e.2)

end Relations

theorem Edges.toList_addMany (es : Edges) (added : List Edge) :
    (es.addMany added).toList = es.toList ++ added := by
  induction added generalizing es with
  | nil => simp [addMany]
  | cons e rest ih =>
      change ((es.add e).addMany rest).toList = _
      rw [ih]
      simp [add]

namespace Graph

theorem coherent_empty : Coherent empty where
  nodes := by intro k m hm; simp [empty] at hm
  subgraphs := by intro k m hm; simp [empty] at hm
  relations := by intro p c; simp [empty]

namespace Coherent

variable {g : Graph}

theorem addNode (h : g.Coherent) (parent name : String) (attrs : Attributes) :
    (g.addNode parent name attrs).Coherent where
  nodes := h.nodes.declare name attrs
  subgraphs := h.subgraphs
  relations := h.relations.add parent name

theorem removeNode (h : g.Coherent) (parent name : String) :
    (g.removeNode parent name).Coherent where
  nodes := h.nodes.erase name
  subgraphs := h.subgraphs
  relations := h.relations.remove parent name

theorem registered (h : g.Coherent) (parent name : String) :
    (g.registered parent name).Coherent where
  nodes := h.nodes
  subgraphs := h.subgraphs.register name
  relations := h.relations.add parent name

end Coherent

end Graph

end DotModel
