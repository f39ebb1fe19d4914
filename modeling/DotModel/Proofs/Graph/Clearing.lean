import DotModel.Graph.InPlace
import DotModel.Proofs.Graph.Incidence

/-!
# Removing the nodes without edges

The nodes that go are those at which no edge of the list starts or ends, in the order in which they
were declared.  They are chosen by the index of the edges and before the first of them is removed.
The removals take no edge away, so what was chosen stays right while they go on, and nothing is left
to choose afterwards.

Each node loses its place in one scope only.  All that stays keeps its order, also in this scope;
a scope that has lost all its members is no longer listed.
-/

namespace DotModel

/-! ## Pairs -/

/-- What has nothing in its image can be left out. -/
theorem flatMap_filter_of_eq_nil {α β : Type} {l : List α} {keep : α → Bool} {f : α → List β}
    (h : ∀ a, keep a = false → f a = []) : (l.filter keep).flatMap f = l.flatMap f := by
  induction l with
  | nil => rfl
  | cons a rest ih =>
      cases hkeep : keep a with
      | true => rw [List.filter_cons_of_pos hkeep, List.flatMap_cons, List.flatMap_cons, ih]
      | false =>
          rw [List.filter_cons_of_neg (Bool.eq_false_iff.mp hkeep), List.flatMap_cons, h a hkeep,
            ih, List.nil_append]

namespace Buckets

variable {κ ν : Type} [DecidableEq κ]

theorem pairs_eq_flatMap_keys (b : Buckets κ ν) :
    pairs b = b.keys.flatMap fun k => (b.bucket k).map fun v => (k, v) := by
  rw [pairs, OrdMap.keys, List.flatMap_map]
  apply List.flatMap_congr
  intro e he
  have hvalues : b.find? e.1 = some e.2 := OrdMap.find?_eq_some_iff.mpr he
  simp [bucket, hvalues]

variable [DecidableEq ν]

/-- The only key that may go is that of a bucket with nothing left in it. -/
theorem keys_unlink (b : Buckets κ ν) (k : κ) (v : ν) :
    (b.unlink k v).keys = b.keys ∨
      (b.unlink k v).keys = b.keys.filter (fun j => j ≠ k) ∧ (b.unlink k v).bucket k = [] := by
  unfold unlink
  cases hold : b.find? k with
  | none => exact Or.inl rfl
  | some values =>
      by_cases hlast : (values.erase v).isEmpty
      · simp only [hlast, if_true]
        refine Or.inr ⟨OrdMap.keys_erase b k, ?_⟩
        exact bucket_eq_nil_of_not_mem fun hmem => (OrdMap.mem_erase.mp hmem).2 rfl
      · simp only [hlast]
        exact Or.inl (OrdMap.keys_modify b k _)

/-- Taking a value out of a bucket takes its pair out of the pairs. -/
theorem pairs_unlink (b : Buckets κ ν) (k : κ) (v : ν) :
    pairs (b.unlink k v) = (pairs b).filter fun e => e ≠ (k, v) := by
  have hkeys : pairs (b.unlink k v) =
      b.keys.flatMap fun j => ((b.unlink k v).bucket j).map fun w => (j, w) := by
    rw [pairs_eq_flatMap_keys]
    rcases keys_unlink b k v with hsame | ⟨hfewer, hnone⟩
    · rw [hsame]
    · rw [hfewer]
      apply flatMap_filter_of_eq_nil
      intro j hj
      have hjk : j = k := by simpa using hj
      rw [hjk, hnone, List.map_nil]
  rw [hkeys, pairs_eq_flatMap_keys, List.filter_flatMap]
  apply List.flatMap_congr
  intro j _
  rw [bucket_unlink, List.filter_map]
  by_cases hj : j = k
  · subst hj
    simp [Function.comp_def]
  · simp [hj, Function.comp_def]

end Buckets

theorem Relations.pairs_remove (r : Relations) (p c : String) :
    (r.remove p c).pairs = r.pairs.filter fun e => e ≠ (p, c) :=
  Buckets.pairs_unlink r.byParent p c

namespace Graph

variable {g left last : Graph} {parent : String} {removed more : List String}

/-! ## What is left -/

/-- The graph `left` is `g` without the nodes of some names and their places in one scope. -/
structure IsWithout (left g : Graph) (parent : String) (removed : List String) : Prop where
  /-- The other nodes are there as before, in their order. -/
  nodes : left.nodes.toList = g.nodes.toList.filter fun e => e.1 ∉ removed
  /-- So are the pairs of the other members and of the other scopes. -/
  pairs : left.relations.pairs = g.relations.pairs.filter fun e => ¬(e.1 = parent ∧ e.2 ∈ removed)
  /-- Each scope has its other members in their order, -/
  children : ∀ scope,
    left.children scope = (g.children scope).filter fun c => ¬(scope = parent ∧ c ∈ removed)
  /-- and each member its other scopes. -/
  parents : ∀ c, left.relations.parents c =
    (g.relations.parents c).filter fun p => ¬(p = parent ∧ c ∈ removed)
  edges : left.edges = g.edges
  subgraphs : left.subgraphs = g.subgraphs
  attrs : left.attrs = g.attrs
  name : left.name = g.name
  directed : left.directed = g.directed
  strict : left.strict = g.strict

namespace IsWithout

theorem refl (g : Graph) (parent : String) : g.IsWithout g parent [] where
  nodes := by simp
  pairs := by simp
  children scope := by simp
  parents c := by simp
  edges := rfl
  subgraphs := rfl
  attrs := rfl
  name := rfl
  directed := rfl
  strict := rfl

theorem removeNode (g : Graph) (parent name : String) :
    (g.removeNode parent name).IsWithout g parent [name] where
  nodes := by
    simp [Graph.removeNode, OrdMap.erase]
  pairs := by
    rw [Graph.removeNode, Relations.pairs_remove]
    simp [Prod.ext_iff]
  children scope := by
    change (g.relations.remove parent name).children scope = _
    rw [Relations.children_remove]
    by_cases hscope : scope = parent
    · subst hscope
      simp [Graph.children]
    · simp [hscope, Graph.children]
  parents c := by
    change (g.relations.remove parent name).parents c = _
    rw [Relations.parents_remove]
    by_cases hc : c = name
    · subst hc
      simp
    · simp [hc]
  edges := rfl
  subgraphs := rfl
  attrs := rfl
  name := rfl
  directed := rfl
  strict := rfl

theorem trans (h : left.IsWithout g parent removed) (hnext : last.IsWithout left parent more) :
    last.IsWithout g parent (removed ++ more) where
  nodes := by
    rw [hnext.nodes, h.nodes, List.filter_filter]
    simp [Bool.and_comm]
  pairs := by
    rw [hnext.pairs, h.pairs, List.filter_filter]
    apply List.filter_congr
    intro e _
    by_cases he : e.1 = parent <;> simp [he, Bool.and_comm]
  children scope := by
    rw [hnext.children, h.children, List.filter_filter]
    by_cases hscope : scope = parent <;> simp [hscope, Bool.and_comm]
  parents c := by
    rw [hnext.parents, h.parents, List.filter_filter]
    apply List.filter_congr
    intro p _
    by_cases hp : p = parent <;> simp [hp, Bool.and_comm]
  edges := hnext.edges.trans h.edges
  subgraphs := hnext.subgraphs.trans h.subgraphs
  attrs := hnext.attrs.trans h.attrs
  name := hnext.name.trans h.name
  directed := hnext.directed.trans h.directed
  strict := hnext.strict.trans h.strict

/-- One removal after the other takes all of the nodes and nothing else. -/
theorem foldl_removeNode (g : Graph) (parent : String) (names : List String) :
    (names.foldl (·.removeNode parent) g).IsWithout g parent names := by
  induction names generalizing g with
  | nil => exact refl g parent
  | cons name rest ih => exact (removeNode g parent name).trans (ih (g.removeNode parent name))

end IsWithout

/-! ## What goes -/

/-- The declared names at which no edge of the list starts or ends. -/
def isolated (g : Graph) : List String :=
  g.nodes.keys.filter fun name => ∀ e ∈ g.edges.toList, e.src ≠ name ∧ e.dst ≠ name

/-- The index of the edges chooses as the list of the edges does. -/
theorem edgeless_eq_isolated (hnodes : g.nodes.Named) (hedges : g.edges.IsIndexed) :
    g.edgeless = g.isolated := by
  rw [edgeless, isolated, hnodes.map_name_values]
  apply List.filter_congr
  intro name _
  rw [Bool.eq_iff_iff, Bool.not_eq_true', decide_eq_true_eq, ← Bool.not_eq_true,
    hedges.participates_iff]
  simp only [not_exists, not_and, not_or, ne_eq]

theorem edgeless_eq_isolated_of_changes (hg : Changes empty g) : g.edgeless = g.isolated := by
  have hempty : empty.HasBuiltEdges := rfl
  exact edgeless_eq_isolated (isConsistent_empty.changes hg).nodes (hempty.changes hg).isIndexed

theorem removeEdgeless_eq (g : Graph) (parent : String) :
    g.removeEdgeless parent = g.edgeless.foldl (·.removeNode parent) g := by
  rw [removeEdgeless, removeEdgelessTo_eq]

theorem removeEdgeless_isWithout (g : Graph) (parent : String) :
    (g.removeEdgeless parent).IsWithout g parent g.edgeless :=
  removeEdgeless_eq g parent ▸ IsWithout.foldl_removeNode g parent g.edgeless

/-- Where all isolated nodes have gone there are none. -/
theorem IsWithout.isolated_eq_nil (h : left.IsWithout g parent g.isolated) :
    left.isolated = [] := by
  have hkeys : left.nodes.keys = g.nodes.keys.filter fun name => name ∉ g.isolated := by
    rw [OrdMap.keys, h.nodes, OrdMap.keys, List.filter_map]
    rfl
  rw [isolated, hkeys, h.edges, List.filter_filter, List.filter_eq_nil_iff]
  intro name hname
  simp only [Bool.and_eq_true, decide_eq_true_eq]
  rintro ⟨hnone, hkept⟩
  exact hkept (List.mem_filter.mpr ⟨hname, decide_eq_true hnone⟩)

end Graph

namespace InPlace

open DotModel.Graph

variable {g : Graph} {Sink Failure : Type} {write : Sink → String → Except Failure Unit × Sink}

theorem run_forM_removeTo (write : Sink → String → Except Failure Unit × Sink) (names : List String)
    (g : Graph) (parent : String) (sink : Sink) :
    (names.forM (removeTo write parent)).run (g, sink) =
      ((), names.foldl (·.removeNode parent) g,
        (names.map removalNotice).foldl (fun s line => (write s line).2) sink) := by
  induction names generalizing g sink with
  | nil => rfl
  | cons name rest ih =>
      exact ih (g.removeNode parent name) (write sink (removalNotice name)).2

/-- What the run gives and what it leaves of the graph do not depend on the sink. -/
theorem run_removeEdgelessTo (write : Sink → String → Except Failure Unit × Sink) (g : Graph)
    (parent : String) (sink : Sink) :
    (removeEdgelessTo write parent).run (g, sink) =
      (g.edgeless, g.removeEdgeless parent,
        (g.edgeless.map removalNotice).foldl (fun s line => (write s line).2) sink) := by
  have hrun : (removeEdgelessTo write parent).run (g, sink) =
      (g.edgeless, ((g.edgeless.forM (removeTo write parent)).run (g, sink)).2) := rfl
  rw [hrun, run_forM_removeTo, removeEdgeless_eq]

/-- What a sink has received that records each line. -/
theorem received_foldl {received : Sink → List String}
    (hrecord : ∀ s line, received (write s line).2 = received s ++ [line]) (lines : List String)
    (sink : Sink) :
    received (lines.foldl (fun s line => (write s line).2) sink) = received sink ++ lines := by
  induction lines generalizing sink with
  | nil => simp
  | cons line rest ih =>
      rw [List.foldl_cons, ih, hrecord, List.append_assoc, List.singleton_append]

/-- In every graph that arises, the nodes that no edge of the list joins are removed and given in
the order in which they were declared.  The graph has lost these nodes and their places in the one
scope and is else as it was.  Whatever the sink does makes no difference, and one that records what
it is given has a line for each of the nodes.  Another run finds nothing to remove. -/
theorem removeEdgelessTo_of_undergoAll {os : List Occurrence} (hg : empty.undergoAll os = g)
    (parent : String) :
    g.edgeless = g.isolated ∧
      (g.removeEdgeless parent).IsWithout g parent g.isolated ∧
      (∀ {Sink Failure : Type} (write : Sink → String → Except Failure Unit × Sink) (sink : Sink),
        ∃ sink', (removeEdgelessTo write parent).run (g, sink) =
            (g.isolated, g.removeEdgeless parent, sink') ∧
          ∀ received : Sink → List String,
            (∀ s line, received (write s line).2 = received s ++ [line]) →
              received sink' = received sink ++ g.isolated.map removalNotice) ∧
      ∀ {Sink Failure : Type} (write : Sink → String → Except Failure Unit × Sink)
        (again : String) (sink : Sink),
        (removeEdgelessTo write again).run (g.removeEdgeless parent, sink) =
          ([], g.removeEdgeless parent, sink) := by
  have harises : Changes empty g := hg ▸ changes_undergoAll empty os
  have hleft : Changes empty (g.removeEdgeless parent) :=
    harises.trans (changes_removeEdgelessTo _ g parent ())
  have hchosen : g.edgeless = g.isolated := edgeless_eq_isolated_of_changes harises
  have hwithout : (g.removeEdgeless parent).IsWithout g parent g.isolated :=
    hchosen ▸ removeEdgeless_isWithout g parent
  have hnone : (g.removeEdgeless parent).edgeless = [] :=
    (edgeless_eq_isolated_of_changes hleft).trans hwithout.isolated_eq_nil
  refine ⟨hchosen, hwithout, ?_, ?_⟩
  · intro Sink Failure write sink
    refine ⟨_, hchosen ▸ run_removeEdgelessTo write g parent sink, ?_⟩
    intro received hrecord
    exact received_foldl hrecord (g.isolated.map removalNotice) sink
  · intro Sink Failure write again sink
    rw [run_removeEdgelessTo, removeEdgeless_eq (g.removeEdgeless parent), hnone]
    rfl

/-- A graph in which `a` is joined with itself only, twice, and `b` with a name that is not
declared.  The subgraph has no members but `c` and `d`, which are joined with nothing. -/
def scattered : Graph :=
  empty.undergoAll ([.setName "G", .addSubgraph "G" "s" ∅, .addNode "s" "c" ∅, .addNode "G" "a" ∅,
    .addNode "G" "c" ∅, .addNode "s" "d" ∅, .addNode "G" "b" ∅, .addEdge (.between "a" "a" true ∅),
    .addEdge (.between "a" "a" true ∅), .addEdge (.between "x" "b" true ∅)].map .command)

/-- Keeps each line and says that it could not be written. -/
def keepAndFail (lines : List String) (line : String) : Except String Unit × List String :=
  (.error "full", lines ++ [line])

/-- The subgraph loses its last members, and one of them stays where it is held besides. -/
theorem scattered_removeEdgelessTo :
    (removeEdgelessTo keepAndFail "s").run (scattered, []) =
        (["c", "d"], scattered.removeEdgeless "s",
          ["removing the node: c\n", "removing the node: d\n"]) ∧
      (scattered.removeEdgeless "s").nodes.keys = ["a", "b"] ∧
      (scattered.removeEdgeless "s").relations.pairs =
        [("G", "s"), ("G", "a"), ("G", "c"), ("G", "b")] ∧
      (scattered.removeEdgeless "s").children "s" = [] ∧
      (removeEdgelessTo keepAndFail "nowhere").run (scattered.removeEdgeless "s", []) =
        ([], scattered.removeEdgeless "s", []) := by
  have hisolated : scattered.isolated = ["c", "d"] := by decide +kernel
  obtain ⟨-, hwithout, hrun, hagain⟩ := removeEdgelessTo_of_undergoAll (g := scattered) rfl "s"
  obtain ⟨sink, hfirst, hreceived⟩ := hrun keepAndFail []
  have hsink : sink = [] ++ scattered.isolated.map removalNotice := hreceived id fun _ _ => rfl
  rw [hisolated] at hwithout hfirst hsink
  refine ⟨?_, ?_, ?_, ?_, hagain keepAndFail "nowhere" []⟩
  · rw [hfirst, hsink]
    rfl
  · rw [OrdMap.keys, hwithout.nodes]
    decide +kernel
  · rw [hwithout.pairs]
    decide +kernel
  · rw [hwithout.children]
    decide +kernel

end InPlace

end DotModel
