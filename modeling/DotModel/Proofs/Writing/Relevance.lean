import DotModel.Proofs.Graph.Consistency
import DotModel.Proofs.Writing.Agreement

/-!
# Graphs that show the same

Two reachable graphs are written alike if they have the same header, the same members and edges in
the same order, and give each shown scope the same live members in the same order.  Nothing else
about the relations matters: pairs that name members which are gone, pairs under scopes that do not
exist or that a node hides, the order in which a member came into its scopes, and the order of the
scopes.

The second graph is the first one with other relations, since the lists of the members and of the
edges tell their indexes.  The index of the relations is a different matter: what it says of the
scopes of a member is looked at, and only agrees because both directions say the same.
-/

namespace DotModel

/-! ## Indexes told by lists -/

namespace Members

variable {ms ms' : Members}

theorem Named.toList_eq (h : ms.Named) : ms.toList = ms.values.map fun m => (m.name, m) := by
  calc
    ms.toList = ms.toList.map id := (List.map_id _).symm
    _ = ms.toList.map ((fun m => (m.name, m)) ∘ Prod.snd) := by
      apply List.map_congr_left
      intro e he
      have hname : e.2.name = e.1 := h e.1 e.2 (OrdMap.find?_eq_some_iff.mpr he)
      rw [Function.comp_apply, hname]
      rfl
    _ = ms.values.map fun m => (m.name, m) := List.map_map.symm

/-- Members that are filed under their names are told by their list. -/
theorem Named.eq_of_values_eq (h : ms.Named) (h' : ms'.Named) (hvalues : ms'.values = ms.values) :
    ms' = ms := by
  apply OrdMap.ext
  rw [h.toList_eq, h'.toList_eq, hvalues]

end Members

namespace Graph

variable {g g' : Graph} {r : Relations} {s : Settings} {p c : String}

theorem HasBuiltEdges.eq_of_toList_eq (h : g.HasBuiltEdges) (h' : g'.HasBuiltEdges)
    (hlist : g'.edges.toList = g.edges.toList) : g'.edges = g.edges := by
  have hbuilt' : Edges.addMany ∅ g'.edges.toList = g'.edges := h'
  have hbuilt : Edges.addMany ∅ g.edges.toList = g.edges := h
  rw [← hbuilt', hlist, hbuilt]

/-! ## Graphs that show the same -/

/-- The graphs have the same header, the same members and edges in the same order, and the same live
members in the same order in every shown scope. -/
structure ShowsSame (g g' : Graph) : Prop where
  name : g'.name = g.name
  directed : g'.directed = g.directed
  strict : g'.strict = g.strict
  attrs : g'.attrs = g.attrs
  nodes : g'.nodes.values = g.nodes.values
  subgraphs : g'.subgraphs.values = g.subgraphs.values
  edges : g'.edges.toList = g.edges.toList
  members : ∀ scope, g.IsShownScope scope → g'.live (g'.children scope) = g.live (g.children scope)

theorem IsShownScope.mem {scope : String} (h : g.IsShownScope scope) :
    scope ∈ g.name :: g.subgraphs.keys := by
  rcases h with rfl | hshown
  · exact List.mem_cons_self
  · exact List.mem_cons_of_mem _ (OrdMap.mem_def.mp (isSubgraph_eq_true_iff.mp hshown.1))

instance (scope : String) : Decidable (g.IsShownScope scope) :=
  inferInstanceAs (Decidable (_ ∨ _))

instance : Decidable (g.ShowsSame g') :=
  decidable_of_iff
    ((g'.name = g.name ∧ g'.directed = g.directed ∧ g'.strict = g.strict ∧ g'.attrs = g.attrs) ∧
      (g'.nodes.values = g.nodes.values ∧ g'.subgraphs.values = g.subgraphs.values ∧
        g'.edges.toList = g.edges.toList) ∧
      ∀ scope ∈ g.name :: g.subgraphs.keys, g.IsShownScope scope →
        g'.live (g'.children scope) = g.live (g.children scope))
    ⟨fun h => ⟨h.1.1, h.1.2.1, h.1.2.2.1, h.1.2.2.2, h.2.1.1, h.2.1.2.1, h.2.1.2.2,
        fun scope hscope => h.2.2 scope hscope.mem hscope⟩,
      fun h => ⟨⟨h.name, h.directed, h.strict, h.attrs⟩, ⟨h.nodes, h.subgraphs, h.edges⟩,
        fun scope _ => h.members scope⟩⟩

theorem ShowsSame.eq_withRelations (h : g.ShowsSame g') (hg : g.Reachable) (hg' : g'.Reachable) :
    g' = g.withRelations g'.relations := by
  have hnodes : g'.nodes = g.nodes :=
    hg.coherent.nodes.eq_of_values_eq hg'.coherent.nodes h.nodes
  have hsubgraphs : g'.subgraphs = g.subgraphs :=
    hg.coherent.subgraphs.eq_of_values_eq hg'.coherent.subgraphs h.subgraphs
  have hedges : g'.edges = g.edges := hg.hasBuiltEdges.eq_of_toList_eq hg'.hasBuiltEdges h.edges
  rw [withRelations, ← h.name, ← h.directed, ← h.strict, ← h.attrs, ← hnodes, ← hsubgraphs,
    ← hedges]

theorem ShowsSame.agrees (h : g.ShowsSame g') (hg : g.Reachable) (hg' : g'.Reachable) :
    g.Agrees g'.relations := by
  intro scope hscope
  have hmembers := h.members scope hscope
  rw [h.eq_withRelations hg hg'] at hmembers
  exact hmembers

theorem ShowsSame.toDocument_eq (h : g.ShowsSame g') (hg : g.Reachable) (hg' : g'.Reachable) :
    g'.toDocument s = g.toDocument s := by
  rw [h.eq_withRelations hg hg']
  exact (h.agrees hg hg').toDocument_eq hg.coherent.relations hg'.coherent.relations

/-! ## What is never seen -/

theorem agrees_of_children_eq (h : ∀ scope, r.children scope = g.children scope) : g.Agrees r := by
  intro scope _
  rw [h scope]

/-- A pair is stale if its scope is not shown or its member is not live. -/
theorem agrees_add_of_stale (h : ¬(g.IsShownScope p ∧ g.IsLive c)) :
    g.Agrees (g.relations.add p c) := by
  intro scope hscope
  rw [Relations.children_add]
  by_cases hadded : scope = p ∧ c ∉ g.relations.children p
  · obtain ⟨rfl, hnew⟩ := hadded
    have hdead : ¬g.IsLive c := fun hlive => h ⟨hscope, hlive⟩
    rw [if_pos ⟨rfl, hnew⟩, live, List.filter_append]
    simp [hdead, live, children]
  · rw [if_neg hadded]
    rfl

theorem agrees_remove_of_stale (h : ¬(g.IsShownScope p ∧ g.IsLive c)) :
    g.Agrees (g.relations.remove p c) :=
  agrees_remove_of_not_isLive fun hscope _ hlive => h ⟨hscope, hlive⟩

/-- Only live relations matter.  Reachable graphs that show the same give the same document or the
same error under all settings.  In particular a stale pair may come or go, and any relations that
say the same in both directions may take the place of the graph's own if they have the same members
in each scope, whatever the order of the scopes is, and that of the scopes of a member. -/
theorem toDocument_eq_of_showsSame (hg : g.Reachable) (hg' : g'.Reachable) (h : g.ShowsSame g') :
    (∀ s, g'.toDocument s = g.toDocument s) ∧
    (∀ s p c, ¬(g.IsShownScope p ∧ g.IsLive c) →
      (g.withRelations (g.relations.add p c)).toDocument s = g.toDocument s ∧
        (g.withRelations (g.relations.remove p c)).toDocument s = g.toDocument s) ∧
    ∀ s (r : Relations), r.Mutual → (∀ scope, r.children scope = g.children scope) →
      (g.withRelations r).toDocument s = g.toDocument s := by
  have hmutual : g.relations.Mutual := hg.coherent.relations
  refine ⟨fun s => h.toDocument_eq hg hg', ?_, ?_⟩
  · intro s p c hstale
    have hadd : g.Agrees (g.relations.add p c) := agrees_add_of_stale hstale
    have hremove : g.Agrees (g.relations.remove p c) := agrees_remove_of_stale hstale
    exact ⟨hadd.toDocument_eq hmutual (hmutual.add p c),
      hremove.toDocument_eq hmutual (hmutual.remove p c)⟩
  · intro s r hr hchildren
    exact (agrees_of_children_eq hchildren).toDocument_eq hmutual hr

/-- A graph with the nodes `a` and `b` and the subgraphs `s` and `b`; the node hides the second. -/
def tidy : Graph :=
  empty.performAll [.setName "G", .addSubgraph "G" "s" ∅, .addSubgraph "G" "b" ∅,
    .addNode "s" "a" ∅, .addNode "G" "b" ∅]

/-- The same with a node that is gone but for its link, and with `a` in two more scopes, of which
one does not exist and the other one is hidden. -/
def untidy : Graph :=
  empty.performAll [.setName "G", .addSubgraph "G" "s" ∅, .addSubgraph "G" "b" ∅,
    .addNode "nowhere" "a" ∅, .addNode "b" "a" ∅, .addNode "s" "gone" ∅, .addNode "s" "a" ∅,
    .addNode "G" "b" ∅, .removeNode "G" "gone"]

theorem tidy_reachable : tidy.Reachable := ⟨_, rfl⟩

theorem untidy_reachable : untidy.Reachable := ⟨_, rfl⟩

/-- The stale links of the second graph are not seen. -/
theorem untidy_toDocument :
    (tidy.Reachable ∧ untidy.Reachable ∧ tidy.ShowsSame untidy) ∧
      untidy.relations.children "s" = ["gone", "a"] ∧ tidy.relations.children "s" = ["a"] ∧
      untidy.relations.parents "a" = ["nowhere", "b", "s"] ∧
      untidy.toDocument {} = tidy.toDocument {} := by
  have hsame : tidy.ShowsSame untidy := by decide +kernel
  have hall := toDocument_eq_of_showsSame tidy_reachable untidy_reachable hsame
  exact ⟨⟨tidy_reachable, untidy_reachable, hsame⟩, by decide +kernel, by decide +kernel,
    by decide +kernel, hall.1 {}⟩

end Graph

end DotModel
