import DotModel.Graph.Basic
import DotModel.Proofs.Ordered.Linking
import Mathlib.Data.Fintype.Card
import Mathlib.Data.Set.Finite.Basic
import Mathlib.Logic.Relation

/-!
# Nesting of subgraphs

The subgraphs that a document can show are those that no node of the same name hides.  Membership
among them is the nesting relation, and a graph can only be written if no shown subgraph contains
itself, directly or through others.
-/

namespace DotModel.Graph

open Relation

variable {g : Graph}

/-- A registered subgraph that no node of its name hides. -/
def IsShown (g : Graph) (name : String) : Prop :=
  g.isSubgraph name = true ∧ g.isNode name = false

/-- A declared node or a registered subgraph. -/
def IsLive (g : Graph) (name : String) : Prop :=
  g.isNode name = true ∨ g.isSubgraph name = true

instance (name : String) : Decidable (g.IsShown name) :=
  inferInstanceAs (Decidable (_ ∧ _))

instance (name : String) : Decidable (g.IsLive name) :=
  inferInstanceAs (Decidable (_ ∨ _))

/-- A shown subgraph among the members of a scope. -/
def Holds (g : Graph) (scope child : String) : Prop :=
  child ∈ g.children scope ∧ g.IsShown child

/-- One shown subgraph is a member of another. -/
def Nests (g : Graph) (parent child : String) : Prop :=
  g.IsShown parent ∧ g.IsShown child ∧ g.relations.contains parent child = true

instance (parent child : String) : Decidable (g.Nests parent child) :=
  inferInstanceAs (Decidable (_ ∧ _ ∧ _))

/-- The name is on a cycle of shown subgraphs. -/
def OnCycle (g : Graph) (name : String) : Prop := TransGen g.Nests name name

/-- One or more steps from a scope to its members lead from the graph's name to the subgraph, all
of them to shown subgraphs. -/
def IsReached (g : Graph) (name : String) : Prop := TransGen g.Holds g.name name

theorem IsShown.isLive {name : String} (h : g.IsShown name) : g.IsLive name := Or.inr h.1

theorem isLive_iff {name : String} : g.IsLive name ↔ g.isNode name = true ∨ g.IsShown name := by
  unfold IsLive IsShown
  cases g.isNode name <;> simp

theorem IsShown.not_isNode {name : String} (h : g.IsShown name) : ¬g.isNode name = true :=
  Bool.not_eq_true _ ▸ h.2

theorem not_isShown_of_not_isSubgraph {name : String} (h : g.isSubgraph name = false) :
    ¬g.IsShown name := by
  intro hshown
  rw [hshown.1] at h
  cases h

theorem isNode_eq_true_iff {name : String} : g.isNode name = true ↔ name ∈ g.nodes :=
  OrdMap.contains_eq_true_iff

theorem isSubgraph_eq_true_iff {name : String} : g.isSubgraph name = true ↔ name ∈ g.subgraphs :=
  OrdMap.contains_eq_true_iff

theorem isNode_eq_false_iff {name : String} : g.isNode name = false ↔ g.node? name = none := by
  rw [← Bool.not_eq_true, isNode_eq_true_iff, node?, OrdMap.find?_eq_none_iff]

theorem exists_node?_of_isNode {name : String} (h : g.isNode name = true) :
    ∃ m, g.node? name = some m :=
  OrdMap.exists_find?_of_mem (isNode_eq_true_iff.mp h)

theorem isNode_of_node? {name : String} {m : Member} (h : g.node? name = some m) :
    g.isNode name = true :=
  isNode_eq_true_iff.mpr (OrdMap.mem_of_find? h)

theorem nests_iff {parent child : String} :
    g.Nests parent child ↔ g.IsShown parent ∧ g.Holds parent child := by
  unfold Nests Holds children
  rw [Relations.contains_eq_true_iff, and_comm (a := g.IsShown child)]

theorem isShown_of_transGen_holds {a b : String} (h : TransGen g.Holds a b) : g.IsShown b := by
  cases h with
  | single hstep => exact hstep.2
  | tail _ hstep => exact hstep.2

theorem transGen_nests_of_holds {a b : String} (ha : g.IsShown a) (h : TransGen g.Holds a b) :
    TransGen g.Nests a b := by
  induction h with
  | single hstep => exact .single (nests_iff.mpr ⟨ha, hstep⟩)
  | tail hprev hstep ih =>
      exact .tail ih (nests_iff.mpr ⟨isShown_of_transGen_holds hprev, hstep⟩)

theorem transGen_holds_of_nests {a b : String} (h : TransGen g.Nests a b) :
    TransGen g.Holds a b :=
  TransGen.mono (fun _ _ hstep => (nests_iff.mp hstep).2) _ _ h

theorem onCycle_iff {name : String} : g.OnCycle name ↔ TransGen g.Holds name name := by
  constructor
  · exact transGen_holds_of_nests
  · intro h
    exact transGen_nests_of_holds (isShown_of_transGen_holds h) h

theorem OnCycle.isShown {name : String} (h : g.OnCycle name) : g.IsShown name :=
  isShown_of_transGen_holds (onCycle_iff.mp h)

/-- Without cycles no kind of subgraph can be such that each of the kind is held by another. -/
theorem not_of_forall_held (hacyclic : ∀ n, ¬g.OnCycle n) {kind : String → Prop}
    (hheld : ∀ n, kind n → ∃ p, kind p ∧ g.IsShown p ∧ g.Holds p n) (n : String) : ¬kind n := by
  let above : {n // n ∈ g.subgraphs.keys} → {n // n ∈ g.subgraphs.keys} → Prop :=
    fun a b => TransGen g.Holds a.1 b.1
  have htrans : IsTrans _ above := ⟨fun _ _ _ h₁ h₂ => h₁.trans h₂⟩
  have hirrefl : Std.Irrefl above := ⟨fun a h => hacyclic a.1 (onCycle_iff.mpr h)⟩
  have hfinite : Finite {n // n ∈ g.subgraphs.keys} := List.finite_toSet g.subgraphs.keys
  have hwf : WellFounded above := Finite.wellFounded_of_trans_of_irrefl above
  have hnone : ∀ a : {n // n ∈ g.subgraphs.keys}, ¬kind a.1 := by
    intro a
    induction a using hwf.induction with
    | h a ih =>
        intro ha
        obtain ⟨p, hp, hshown, hstep⟩ := hheld a.1 ha
        exact ih ⟨p, isSubgraph_eq_true_iff.mp hshown.1⟩ (.single hstep) hp
  intro hn
  obtain ⟨p, hp, hshown, hstep⟩ := hheld n hn
  exact hnone ⟨n, isSubgraph_eq_true_iff.mp hstep.2.1⟩ hn

end DotModel.Graph
