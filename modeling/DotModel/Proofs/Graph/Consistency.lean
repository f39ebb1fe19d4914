import DotModel.Graph.History
import DotModel.Proofs.Graph.Coherence
import DotModel.Proofs.Json.StoredGraph
import DotModel.Proofs.Nesting.Basic

/-!
# Consistency of every graph that can arise

Whatever commands are given to a graph, with whatever arguments and whether they succeed or fail,
and however often it is stored and read again in between: members are filed under their own names,
every node stands in some scope, and both indexes of the relation hold the same pairs, in buckets
that are not empty.

A removal unlinks the node from the stated scope only and leaves its other links.  So links may
name nodes that are gone, and a node that comes back finds them again; but a node never lacks the
link to the scope that it was declared in last, since whatever takes this link takes the node too.

Every command is a run of a few elementary changes, and an invariant only has to be shown for them.
-/

namespace DotModel

/-- No bucket is empty. -/
def Buckets.Filled {κ ν : Type} [DecidableEq κ] (b : Buckets κ ν) : Prop :=
  ∀ k values, b.find? k = some values → values.toList ≠ []

namespace Buckets.Filled

variable {κ ν : Type} [DecidableEq κ] [DecidableEq ν] {b : Buckets κ ν}

theorem link (h : b.Filled) (k : κ) (v : ν) : (b.link k v).Filled := by
  intro j values hj
  rw [Buckets.link, OrdMap.find?_upsert] at hj
  by_cases hjk : j = k
  · rw [if_pos hjk] at hj
    have hmem : v ∈ values := by
      cases hold : b.find? k with
      | none =>
          rw [hold] at hj
          cases hj
          exact OrdSet.mem_singleton.mpr rfl
      | some old =>
          rw [hold] at hj
          cases hj
          exact OrdSet.mem_insert.mpr (Or.inl rfl)
    exact List.ne_nil_of_mem (OrdSet.mem_def.mp hmem)
  · rw [if_neg hjk] at hj
    exact h j values hj

/-- The bucket that loses its last value goes with it. -/
theorem unlink (h : b.Filled) (k : κ) (v : ν) : (b.unlink k v).Filled := by
  unfold Buckets.unlink
  cases hold : b.find? k with
  | none => exact h
  | some old =>
      by_cases hlast : (old.erase v).isEmpty
      · simp only [hlast, if_true]
        intro j values hj
        rw [OrdMap.find?_erase] at hj
        by_cases hjk : j = k
        · rw [if_pos hjk] at hj
          cases hj
        · rw [if_neg hjk] at hj
          exact h j values hj
      · simp only [hlast]
        intro j values hj
        change OrdMap.find? (OrdMap.modify b k _) j = some values at hj
        rw [OrdMap.find?_modify] at hj
        by_cases hjk : j = k
        · subst hjk
          rw [if_pos rfl, hold] at hj
          cases hj
          simpa [OrdSet.isEmpty] using hlast
        · rw [if_neg hjk] at hj
          exact h j values hj

end Buckets.Filled

namespace Graph

open Relation

/-! ## Elementary changes -/

/-- A change that is made as a whole. -/
inductive Change : Graph → Graph → Prop where
  | header (g : Graph) (name : String) (directed strict : Bool) :
      Change g { g with name, directed, strict }
  | attrs (g : Graph) (attrs : Attributes) : Change g { g with attrs }
  | edge (g : Graph) (e : Edge) : Change g (g.addEdge e)
  | declare (g : Graph) (parent name : String) (attrs : Attributes) :
      Change g (g.addNode parent name attrs)
  | remove (g : Graph) (parent name : String) : Change g (g.removeNode parent name)
  | register (g : Graph) (parent name : String) (hscope : g.isScope parent = true) :
      Change g { g with
        subgraphs := g.subgraphs.register name
        relations := g.relations.add parent name }
  | describe (g : Graph) (name key value : String) :
      Change g { g with subgraphs := g.subgraphs.setAttr name key value }

/-- Changes one after the other. -/
abbrev Changes : Graph → Graph → Prop := ReflTransGen Change

variable {g g' : Graph}

theorem changes_addEdges (g : Graph) (added : List Edge) : Changes g (g.addEdges added) := by
  induction added generalizing g with
  | nil => exact .refl
  | cons e rest ih => exact .head (.edge g e) (ih (g.addEdge e))

theorem changes_addItem (g : Graph) (parent : String) (item : Item) :
    Changes g (g.addItem parent item) :=
  .head (.declare g parent item.name item.attrs) (changes_addEdges _ item.edges)

theorem changes_addItems (g : Graph) (parent : String) (items : List Item) :
    Changes g (g.addItems parent items) := by
  induction items generalizing g with
  | nil => exact .refl
  | cons item rest ih => exact (changes_addItem g parent item).trans (ih _)

/-- The names are collected before the first removal.  The removals take these nodes away one after
the other, and the reports go to the sink in the same order. -/
theorem removeEdgelessTo_eq {Sink : Type} (write : Sink → String → Sink) (g : Graph)
    (parent : String) (sink : Sink) :
    g.removeEdgelessTo write parent sink =
      (g.edgeless.foldl (·.removeNode parent) g,
        (g.edgeless.map removalNotice).foldl write sink) := by
  rw [removeEdgelessTo]
  generalize g.edgeless = names
  induction names generalizing g sink with
  | nil => rfl
  | cons name rest ih => exact ih (g.removeNode parent name) (write sink (removalNotice name))

theorem changes_removeEdgelessTo {Sink : Type} (write : Sink → String → Sink) (g : Graph)
    (parent : String) (sink : Sink) : Changes g (g.removeEdgelessTo write parent sink).1 := by
  rw [removeEdgelessTo_eq]
  exact List.foldlRecOn g.edgeless _ .refl fun next hnext name _ =>
    hnext.tail (.remove next parent name)

theorem changes_of_addAttr {scope key value : String} (h : g.addAttr scope key value = .ok g') :
    Changes g g' := by
  obtain ⟨-, rfl⟩ | ⟨-, rfl⟩ := addAttr_cases h
  · exact .single (.attrs g _)
  · exact .single (.describe g scope key value)

theorem changes_of_addAttrs {scope : String} {attrs : List (String × String)}
    (h : g.addAttrs scope attrs = .ok g') : Changes g g' :=
  addAttrs_induction (fun hnext hstep => hnext.trans (changes_of_addAttr hstep)) .refl h

theorem changes_of_addSubgraph {parent name : String} {attrs : Attributes}
    (h : g.addSubgraph parent name attrs = .ok g') : Changes g g' := by
  obtain ⟨hscope, hattrs⟩ := addSubgraph_cases h
  exact .head (.register g parent name hscope) (changes_of_addAttrs hattrs)

/-- A command that succeeds is a run of changes. -/
theorem changes_of_apply {c : Command} (h : g.apply c = .ok g') : Changes g g' := by
  cases c with
  | setName name => cases h; exact .single (.header g name g.directed g.strict)
  | setDirected directed => cases h; exact .single (.header g g.name directed g.strict)
  | setStrict strict => cases h; exact .single (.header g g.name g.directed strict)
  | addNode parent name attrs => cases h; exact .single (.declare g parent name attrs)
  | removeNode parent name => cases h; exact .single (.remove g parent name)
  | addItem parent item => cases h; exact changes_addItem g parent item
  | addItems parent items => cases h; exact changes_addItems g parent items
  | addEdge edge => cases h; exact .single (.edge g edge)
  | addEdges edges => cases h; exact changes_addEdges g edges
  | addPortEdge src srcPort dst dstPort directed attrs => cases h; exact .single (.edge g _)
  | addEdgesFrom source => cases h; exact changes_addEdges g source.edgeList
  | addOwnEdges => cases h; exact changes_addEdges g g.edges.toList
  | addAttr scope key value => exact changes_of_addAttr h
  | addSubgraph parent name attrs => exact changes_of_addSubgraph h
  | removeEdgeless parent => cases h; exact changes_removeEdgelessTo _ g parent ()

theorem changes_perform (g : Graph) (c : Command) : Changes g (g.perform c) := by
  unfold perform
  split
  · exact changes_of_apply ‹_›
  · exact .refl

@[simp] theorem reload_eq (g : Graph) : g.reload = g := by
  have hload : load g.save = .ok g := by
    rw [load, save, Json.ofText?_compact, Option.bind_eq_bind, Option.bind_some, ofJson?_toJson]
  rw [reload, hload]

theorem changes_undergoAll (g : Graph) (os : List Occurrence) : Changes g (g.undergoAll os) := by
  induction os generalizing g with
  | nil => exact .refl
  | cons o rest ih =>
      have hfirst : Changes g (g.undergo o) := by
        cases o with
        | command c => exact changes_perform g c
        | reload => rw [undergo, reload_eq]
      exact hfirst.trans (ih (g.undergo o))

theorem Reachable.changes (h : g.Reachable) : Changes empty g := by
  obtain ⟨os, rfl⟩ := h
  exact changes_undergoAll empty os

/-! ## The index of the edges -/

/-- The index is what comes of adding the edges in their order. -/
def HasBuiltEdges (g : Graph) : Prop := Edges.addMany ∅ g.edges.toList = g.edges

/-- Edges come one by one and never go. -/
theorem HasBuiltEdges.change (h : g.HasBuiltEdges) (hstep : Change g g') : g'.HasBuiltEdges := by
  cases hstep with
  | header name directed strict => exact h
  | attrs attrs => exact h
  | edge e =>
      change Edges.addMany ∅ (g.edges.toList ++ [e]) = g.edges.add e
      rw [Edges.addMany, List.foldl_append]
      exact congrArg (fun es => Edges.add es e) h
  | declare parent name attrs => exact h
  | remove parent name => exact h
  | register parent name _ => exact h
  | describe name key value => exact h

theorem HasBuiltEdges.changes (h : g.HasBuiltEdges) (hrun : Changes g g') : g'.HasBuiltEdges := by
  induction hrun with
  | refl => exact h
  | tail _ hstep ih => exact ih.change hstep

theorem Reachable.hasBuiltEdges (h : g.Reachable) : g.HasBuiltEdges := by
  have hempty : empty.HasBuiltEdges := rfl
  exact hempty.changes h.changes

/-! ## Consistency -/

/-- The collections of the graph agree with each other. -/
structure IsConsistent (g : Graph) : Prop extends g.Coherent where
  /-- Each node stands in some scope. -/
  placed : ∀ name, g.isNode name = true → ∃ parent, parent ∈ g.relations.parents name
  /-- No scope is listed without members, -/
  byParent : g.relations.byParent.Filled
  /-- and no member without scopes. -/
  byChild : g.relations.byChild.Filled

theorem isConsistent_empty : IsConsistent empty where
  toCoherent := coherent_empty
  placed := by intro name h; simp [empty, isNode] at h
  byParent := by intro k values h; cases h
  byChild := by intro k values h; cases h

namespace IsConsistent

theorem addNode (h : g.IsConsistent) (parent name : String) (attrs : Attributes) :
    (g.addNode parent name attrs).IsConsistent where
  toCoherent := h.toCoherent.addNode parent name attrs
  placed := by
    intro n hn
    rw [isNode_eq_true_iff] at hn
    rcases Members.mem_declare.mp hn with rfl | hold
    · exact ⟨parent, Relations.mem_parents_add.mpr (Or.inl ⟨rfl, rfl⟩)⟩
    · obtain ⟨p, hp⟩ := h.placed n (isNode_eq_true_iff.mpr hold)
      exact ⟨p, Relations.mem_parents_add.mpr (Or.inr hp)⟩
  byParent := h.byParent.link parent name
  byChild := h.byChild.link name parent

/-- A removal takes a link of one node only, and that node. -/
theorem removeNode (h : g.IsConsistent) (parent name : String) :
    (g.removeNode parent name).IsConsistent where
  toCoherent := h.toCoherent.removeNode parent name
  placed := by
    intro n hn
    rw [isNode_eq_true_iff] at hn
    obtain ⟨hold, hne⟩ := OrdMap.mem_erase.mp hn
    obtain ⟨p, hp⟩ := h.placed n (isNode_eq_true_iff.mpr hold)
    exact ⟨p, Relations.mem_parents_remove.mpr ⟨hp, fun heq => hne heq.2⟩⟩
  byParent := h.byParent.unlink parent name
  byChild := h.byChild.unlink name parent

theorem registered (h : g.IsConsistent) (parent name : String) :
    (g.registered parent name).IsConsistent where
  toCoherent := h.toCoherent.registered parent name
  placed := by
    intro n hn
    obtain ⟨p, hp⟩ := h.placed n hn
    exact ⟨p, Relations.mem_parents_add.mpr (Or.inr hp)⟩
  byParent := h.byParent.link parent name
  byChild := h.byChild.link name parent

/-- Every elementary change keeps a graph consistent. -/
theorem change (h : g.IsConsistent) (hstep : Change g g') : g'.IsConsistent := by
  cases hstep with
  | header name directed strict =>
      exact ⟨⟨h.nodes, h.subgraphs, h.relations⟩, h.placed, h.byParent, h.byChild⟩
  | attrs attrs => exact ⟨⟨h.nodes, h.subgraphs, h.relations⟩, h.placed, h.byParent, h.byChild⟩
  | edge e => exact ⟨⟨h.nodes, h.subgraphs, h.relations⟩, h.placed, h.byParent, h.byChild⟩
  | declare parent name attrs => exact h.addNode parent name attrs
  | remove parent name => exact h.removeNode parent name
  | register parent name _ => exact h.registered parent name
  | describe name key value =>
      exact ⟨⟨h.nodes, h.subgraphs.setAttr name key value, h.relations⟩, h.placed, h.byParent,
        h.byChild⟩

theorem changes (h : g.IsConsistent) (hrun : Changes g g') : g'.IsConsistent := by
  induction hrun with
  | refl => exact h
  | tail _ hstep ih => exact ih.change hstep

end IsConsistent

theorem Reachable.isConsistent (h : g.Reachable) : g.IsConsistent :=
  isConsistent_empty.changes h.changes

theorem Reachable.coherent (h : g.Reachable) : g.Coherent := h.isConsistent.toCoherent

/-- Every graph that arises from the empty one is consistent, and no name occurs twice among its
nodes or among its subgraphs. -/
theorem isConsistent_undergoAll (os : List Occurrence) :
    (empty.undergoAll os).IsConsistent ∧
      ((empty.undergoAll os).nodes.values.map Member.name).Nodup ∧
      ((empty.undergoAll os).subgraphs.values.map Member.name).Nodup := by
  have h : (empty.undergoAll os).IsConsistent := Reachable.isConsistent ⟨os, rfl⟩
  refine ⟨h, ?_, ?_⟩
  · rw [h.nodes.map_name_values]
    exact OrdMap.keys_nodup _
  · rw [h.subgraphs.map_name_values]
    exact OrdMap.keys_nodup _

end Graph

end DotModel
