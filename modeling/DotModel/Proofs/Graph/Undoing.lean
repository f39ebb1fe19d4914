import DotModel.Proofs.Graph.Pairs

/-!
# Taking back what was added

A node that is not there, declared in a scope that does not hold its name, is taken back by its
removal: the graph is as it was, with every order in it.

What is new stands last in its collection and in its bucket, in both directions of the relation, so
that the rest keeps its order.  A bucket that was opened for it is empty without it and goes.  For
this no bucket may have been empty before: filing a value into an empty one and taking it out again
leaves none.
-/

namespace DotModel

theorem OrdSet.erase_insert {α : Type} [DecidableEq α] {s : OrdSet α} {a : α} (h : a ∉ s) :
    (s.insert a).erase a = s := by
  apply OrdSet.ext
  rw [toList_erase, toList_insert, if_neg h, List.filter_append, List.filter_cons_of_neg (by simp),
    List.filter_nil, List.append_nil, List.filter_eq_self]
  intro x hx
  have hne : x ≠ a := fun heq => h (heq ▸ hx)
  exact decide_eq_true hne

/-- A value that was not filed can be taken out again, if no bucket was empty. -/
theorem Buckets.unlink_link {κ ν : Type} [DecidableEq κ] [DecidableEq ν] {b : Buckets κ ν}
    {k : κ} {v : ν} (hfilled : b.Filled) (h : v ∉ b.bucket k) : (b.link k v).unlink k v = b := by
  have hlinked : (b.link k v).find? k = some (((b.find? k).map (·.insert v)).getD {v}) := by
    rw [link, OrdMap.find?_upsert, if_pos rfl]
  cases hold : b.find? k with
  | none =>
      have hnew : k ∉ b := OrdMap.find?_eq_none_iff.mp hold
      have hlast : (OrdSet.erase {v} v).isEmpty = true := by
        simp [OrdSet.isEmpty]
      rw [hold, Option.map_none, Option.getD_none] at hlinked
      rw [unlink, hlinked]
      simp only [hlast, if_true]
      exact OrdMap.erase_upsert hnew _ _
  | some values =>
      have hv : v ∉ values := by simpa [bucket, hold, OrdSet.mem_def] using h
      have hback : (values.insert v).erase v = values := OrdSet.erase_insert hv
      have hkept : values.isEmpty = false := by
        simpa [OrdSet.isEmpty] using hfilled k values hold
      rw [hold, Option.map_some, Option.getD_some] at hlinked
      rw [unlink, hlinked]
      simp only [hback, hkept, Bool.false_eq_true, if_false]
      rw [link, OrdMap.upsert, dif_pos (OrdMap.mem_of_find? hold), OrdMap.modify_modify]
      apply OrdMap.modify_eq_self
      intro w hw
      rw [hold] at hw
      exact Option.some.inj hw ▸ hback

namespace Relations

variable {r : Relations} {pairs : List (String × String)} {p c : String}

/-- A pair that was not there can be taken out again. -/
theorem remove_add (hparent : r.byParent.Filled) (hchild : r.byChild.Filled) (hmutual : r.Mutual)
    (h : r.contains p c = false) : (r.add p c).remove p c = r := by
  have hc : c ∉ r.children p := by
    rw [← contains_eq_true_iff, h]
    exact Bool.false_ne_true
  have hp : p ∉ r.parents c := fun hmem => hc ((hmutual p c).mp hmem)
  rw [add, remove, Buckets.unlink_link hparent hc, Buckets.unlink_link hchild hp]

theorem Holds.mutual (h : r.Holds pairs) : r.Mutual := by
  intro p c
  rw [h.mem_parents_iff, contains_eq_true_iff]

end Relations

namespace Graph

variable {g : Graph} {parent name : String}

/-- A new node in a scope that does not hold its name can be taken back. -/
theorem IsConsistent.removeNode_addNode (h : g.IsConsistent) (hnode : g.isNode name = false)
    (hpair : g.relations.contains parent name = false) (attrs : Attributes) :
    (g.addNode parent name attrs).removeNode parent name = g := by
  have hnew : name ∉ g.nodes := OrdMap.find?_eq_none_iff.mp (isNode_eq_false_iff.mp hnode)
  have hnodes : (g.nodes.declare name attrs).erase name = g.nodes := OrdMap.erase_upsert hnew _ _
  have hrelations : (g.relations.add parent name).remove parent name = g.relations :=
    Relations.remove_add h.byParent h.byChild h.relations hpair
  rw [Graph.addNode, Graph.removeNode, hnodes, hrelations]

/-- In every graph that arises, a new node in a scope that does not hold its name can be taken back,
whatever else has this name or holds it and whether or not the scope exists.  The same is true of a
pair in every relation that arises. -/
theorem removeNode_addNode_of_undergoAll {os : List Occurrence} (hg : empty.undergoAll os = g)
    (hnode : g.isNode name = false) (hpair : g.relations.contains parent name = false)
    (attrs : Attributes) :
    (g.addNode parent name attrs).removeNode parent name = g ∧
      ∀ (us : List Relations.Update) (p c : String),
        (Relations.updateAll ∅ us).contains p c = false →
          ((Relations.updateAll ∅ us).add p c).remove p c = Relations.updateAll ∅ us := by
  constructor
  · have hconsistent : g.IsConsistent :=
      hg ▸ isConsistent_empty.changes (changes_undergoAll empty os)
    exact hconsistent.removeNode_addNode hnode hpair attrs
  · intro us p c hnew
    have hholds := Relations.holds_pairsAfter us
    exact Relations.remove_add hholds.byParent.filled hholds.byChild.filled hholds.mutual hnew

/-- A graph with the subgraph `x`, a link left behind by a node that is gone, and the node `a` in
two scopes. -/
def crowded : Graph :=
  empty.undergoAll ([.setName "G", .addSubgraph "G" "s" ∅, .addSubgraph "s" "x" ∅,
    .addNode "s" "a" ∅, .addNode "G" "a" ∅, .addNode "s" "gone" ∅,
    .removeNode "G" "gone"].map .command)

/-- The node `x` comes and goes beside the subgraph `x`, in a scope that does not exist. -/
theorem crowded_removeNode_addNode :
    (crowded.isNode "x" = false ∧ crowded.relations.contains "nowhere" "x" = false ∧
      (Relations.updateAll ∅ [.add "s" "x", .remove "s" "x"]).contains "s" "x" = false) ∧
      crowded.isSubgraph "x" = true ∧ crowded.relations.parents "x" = ["s"] ∧
      crowded.isScope "nowhere" = false ∧ crowded.addNode "nowhere" "x" ∅ ≠ crowded ∧
      (crowded.addNode "nowhere" "x" ∅).removeNode "nowhere" "x" = crowded ∧
      ((Relations.updateAll ∅ [.add "s" "x", .remove "s" "x"]).add "s" "x").remove "s" "x" =
        Relations.updateAll ∅ [.add "s" "x", .remove "s" "x"] := by
  have hnode : crowded.isNode "x" = false := by decide +kernel
  have hpair : crowded.relations.contains "nowhere" "x" = false := by decide +kernel
  have hnew : (Relations.updateAll ∅ [.add "s" "x", .remove "s" "x"]).contains "s" "x" = false := by
    decide +kernel
  have hall := removeNode_addNode_of_undergoAll rfl hnode hpair ∅
  exact ⟨⟨hnode, hpair, hnew⟩, by decide +kernel, by decide +kernel, by decide +kernel,
    by decide +kernel, hall.1, hall.2 _ "s" "x" hnew⟩

end Graph

end DotModel
