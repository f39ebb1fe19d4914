import DotModel.Proofs.Writing.Agreement
import DotModel.Proofs.Writing.Exactness

/-!
# Removing a node that does not exist

Nodes and subgraphs share one relation, so that removing a node takes the name out of the scope even
if no such node exists.  If the name is that of a subgraph which the scope shows, the subgraph
leaves its place in the document.  In all other cases the removal cannot be seen.
-/

namespace DotModel

namespace Graph

variable {g : Graph} {s : Settings} {limit : Nat} {parent name scope : String}

/-- Removing what is not a node changes nothing but the relations. -/
theorem removeNode_eq (hname : g.isNode name = false) :
    g.removeNode parent name = g.withRelations (g.relations.remove parent name) := by
  have hnodes : g.nodes.erase name = g.nodes :=
    OrdMap.erase_eq_self (OrdMap.find?_eq_none_iff.mp (isNode_eq_false_iff.mp hname))
  rw [removeNode, hnodes]
  rfl

/-! ## What cannot be seen -/

/-- Unless a shown scope loses a subgraph that it shows, the relations agree after the removal. -/
theorem agrees_remove (hname : g.isNode name = false)
    (hfree : ¬(g.IsShownScope parent ∧ g.Holds parent name)) :
    g.Agrees (g.relations.remove parent name) := by
  apply agrees_remove_of_not_isLive
  intro hscope hchild hlive
  have hshown : g.IsShown name := (isLive_iff.mp hlive).resolve_left (by simp [hname])
  exact hfree ⟨hscope, hchild, hshown⟩

/-! ## What can be seen -/

/-- A scope that shows the subgraph has one live member less after the removal. -/
theorem length_live_remove (hholds : g.Holds parent name) :
    (g.live ((g.relations.remove parent name).children parent)).length <
      (g.live (g.children parent)).length := by
  have hmem : name ∈ g.live (g.children parent) := mem_live_iff.mpr ⟨hholds.1, hholds.2.isLive⟩
  have hremove : g.live ((g.relations.remove parent name).children parent) =
      (g.live (g.children parent)).filter fun child => child ≠ name := by
    rw [Relations.children_remove, if_pos rfl, live, live, List.filter_filter, List.filter_filter]
    apply List.filter_congr
    intro child _
    rw [Bool.and_comm]
  rw [hremove]
  exact List.length_filter_lt_length_iff_exists.mpr ⟨name, hmem, by simp⟩

/-- Without orphans a document has a statement for each attribute, each live member of the graph's
own scope and each edge. -/
theorem length_stmts_of_no_orphans {doc : Document} (hs : s.emitOrphans = false)
    (h : g.toDocument s = .ok doc) :
    doc.stmts.length =
      g.attrs.toList.length + (g.live (g.children g.name)).length + g.edges.toList.length := by
  obtain ⟨o, edges, ho, hedges, rfl⟩ := toDocument_ok_cases h
  obtain ⟨members, after, hroot, rfl⟩ := outline_ok_cases_of_no_orphans hs ho
  obtain ⟨places, w, rfl⟩ := exists_walk_of_rootStmts hroot
  simp [Outline.stmts, attrStmts, Place.toStmts_eq_map, w.length_places, length_edgeStmts hedges,
    Nat.add_assoc]

/-- What can be written with orphans can be written without them. -/
theorem exists_toDocument_of_no_orphans {doc : Document} (hs : s.emitOrphans = true)
    (h : g.toDocument s = .ok doc) :
    ∃ doc', g.toDocument { s with emitOrphans := false } = .ok doc' := by
  obtain ⟨o, edges, ho, hedges, rfl⟩ := toDocument_ok_cases h
  obtain ⟨members, between, blocks, after, hroot, -, rfl⟩ := outline_ok_cases_of_orphans hs ho
  rw [toDocument_eq, outline_eq_of_no_orphans rfl, hroot, ok_bind, ok_bind, hedges, ok_bind]
  exact ⟨_, rfl⟩

/-- Without orphans a subgraph that leaves the graph's own scope is missing at the top level. -/
theorem toDocument_removeNode_ne_of_root {doc : Document} (hname : g.isNode name = false)
    (hholds : g.Holds g.name name) (hs : s.emitOrphans = false)
    (h : g.toDocument s = .ok doc) :
    (g.removeNode g.name name).toDocument s ≠ .ok doc := by
  intro h'
  rw [removeNode_eq hname] at h'
  have hlength := length_stmts_of_no_orphans hs h
  have hlength' := length_stmts_of_no_orphans hs h'
  simp only [name_withRelations, attrs_withRelations, edges_withRelations, children_withRelations,
    live_withRelations] at hlength'
  have hless := length_live_remove hholds
  omega

namespace Course

variable {lost lost' expanded expanded' : List String} {places places' : List Place}
  {edges : List EdgeStmt}

/-- The statements of a course: the attributes, the live members of the graph's own scope, the loose
members and the edges. -/
theorem length_stmts (c : Course g limit lost places expanded) (hedges : g.edgeStmts = .ok edges) :
    ((attrStmts g.name g.attrs).map Stmt.attr ++ Place.toStmts g places ++
        edges.map Stmt.edge).length =
      g.attrs.toList.length + ((g.live (g.children g.name)).length + lost.length) +
        g.edges.toList.length := by
  simp [attrStmts, Place.toStmts_eq_map, c.walk.length_places, c.live_names,
    length_edgeStmts hedges, Nat.add_assoc]

/-- What is loose before the removal is loose after it. -/
theorem subset_lost_remove (c : Course g limit lost places expanded)
    (c' : Course (g.withRelations (g.relations.remove parent name)) limit lost' places' expanded') :
    lost ⊆ lost' := by
  intro n hn
  obtain ⟨hlive, hloose⟩ := (c.mem_lost n).mp hn
  refine (c'.mem_lost n).mpr ⟨hlive, ?_⟩
  intro scope hscope hchild
  exact hloose scope hscope (Relations.mem_children_remove.mp hchild).1

/-- If nothing becomes loose by the removal, the subgraph stands in one scope less. -/
theorem length_nestings_remove (c : Course g limit lost places expanded)
    (c' : Course (g.withRelations (g.relations.remove parent name)) limit lost' places' expanded')
    (hparent : g.IsShown parent) (hne : parent ≠ g.name) (hholds : g.Holds parent name)
    (hlost : lost' ⊆ lost) :
    (Place.nestingsAll g.name places').length < (Place.nestingsAll g.name places).length := by
  have hnew : (parent, name) ∉ Place.nestingsAll g.name places' := by
    intro hmem
    obtain ⟨-, ⟨-, hchild⟩ | ⟨hroot, -⟩⟩ := c'.mem_nestings_iff.mp hmem
    · exact (Relations.mem_children_remove.mp hchild).2 ⟨rfl, rfl⟩
    · exact hne hroot
  have hold : (parent, name) ∈ Place.nestingsAll g.name places :=
    c.mem_nestings_iff.mpr ⟨hholds.2.isLive, Or.inl ⟨Or.inr hparent, hholds.1⟩⟩
  have hrest : Place.nestingsAll g.name places' ⊆ Place.nestingsAll g.name places := by
    rintro ⟨p, n⟩ hmem
    obtain ⟨hlive, hplace⟩ := c'.mem_nestings_iff.mp hmem
    refine c.mem_nestings_iff.mpr ⟨hlive, ?_⟩
    rcases hplace with ⟨hscope, hchild⟩ | ⟨hroot, hloose⟩
    · exact Or.inl ⟨hscope, (Relations.mem_children_remove.mp hchild).1⟩
    · have hlost : n ∈ lost := hlost ((c'.mem_lost n).mpr ⟨hlive, hloose⟩)
      exact Or.inr ⟨hroot, ((c.mem_lost n).mp hlost).2⟩
  have hnodup : ((parent, name) :: Place.nestingsAll g.name places').Nodup :=
    List.nodup_cons.mpr ⟨hnew, c'.nodup_nestings⟩
  have hsubset := List.cons_subset.mpr ⟨hold, hrest⟩
  exact (List.subperm_of_subset hnodup hsubset).length_le

end Course

/-- With orphans a subgraph that leaves another one is missing there. -/
theorem toDocument_removeNode_ne_of_isShown {doc : Document} (hg : g.Coherent)
    (hgraph : g.isSubgraph g.name = false) (hname : g.isNode name = false)
    (hparent : g.IsShown parent) (hholds : g.Holds parent name) (hs : s.emitOrphans = true)
    (h : g.toDocument s = .ok doc) : (g.removeNode parent name).toDocument s ≠ .ok doc := by
  intro h'
  have hg' : (g.removeNode parent name).Coherent := hg.removeNode parent name
  have hne : parent ≠ g.name := fun heq => not_isShown_of_not_isSubgraph hgraph (heq ▸ hparent)
  rw [removeNode_eq hname] at h' hg'
  obtain ⟨lost, places, expanded, edges, c, hedges, rfl⟩ :=
    exists_course_of_toDocument hg hgraph hs h
  obtain ⟨lost', places', expanded', edges', c', hedges', hdoc⟩ :=
    exists_course_of_toDocument hg' hgraph hs h'
  -- One top level has as many statements as the other, so nothing became loose.
  have hstmts := c.length_stmts hedges
  have hstmts' := c'.length_stmts hedges'
  have hdocStmts := congrArg (fun d => d.stmts.length) hdoc
  have hsame : (g.relations.remove parent name).children g.name = g.children g.name := by
    rw [Relations.children_remove, if_neg (Ne.symm hne)]
    rfl
  simp only [name_withRelations, attrs_withRelations, edges_withRelations, children_withRelations,
    live_withRelations, hsame] at hstmts' hdocStmts
  have hlength : lost'.length ≤ lost.length := by omega
  have hlost : lost' ⊆ lost :=
    ((List.subperm_of_subset c.nodup_lost (c.subset_lost_remove c')).perm_of_length_le
      hlength).symm.subset
  have hless := c.length_nestings_remove c' hparent hne hholds hlost
  have hnestings := congrArg Document.nestings hdoc
  rw [c.nestings_document hg, c'.nestings_document hg'] at hnestings
  have hnestings := congrArg List.length hnestings
  rw [List.length_map, List.length_map] at hnestings
  exact absurd hnestings (Nat.ne_of_gt hless)

/-! ## The removal of a name that is no node -/

/-- Whatever the settings, removing a name that is no node changes neither the document nor the
error, unless a shown scope loses a subgraph by it.  Then some settings tell the difference, if the
graph can be written with orphans at all. -/
theorem toDocument_removeNode (hg : g.Reachable) (hname : g.isNode name = false)
    (parent : String) :
    (¬(g.IsShownScope parent ∧ g.Holds parent name) →
      ∀ s, (g.removeNode parent name).toDocument s = g.toDocument s) ∧
    (g.IsShownScope parent ∧ g.Holds parent name → g.isSubgraph g.name = false →
      (∃ s doc, s.emitOrphans = true ∧ g.toDocument s = .ok doc) →
      ∃ s, (g.removeNode parent name).toDocument s ≠ g.toDocument s) := by
  have hcoherent : g.Coherent := hg.coherent
  constructor
  · intro hfree s
    have hmutual := hcoherent.relations.remove parent name
    rw [removeNode_eq hname, (agrees_remove hname hfree).toDocument_eq hcoherent.relations hmutual]
  · rintro ⟨rfl | hshown, hholds⟩ hgraph ⟨s, doc, hs, hdoc⟩
    · obtain ⟨doc', hdoc'⟩ := exists_toDocument_of_no_orphans hs hdoc
      refine ⟨{ s with emitOrphans := false }, ?_⟩
      rw [hdoc']
      exact toDocument_removeNode_ne_of_root hname hholds rfl hdoc'
    · refine ⟨s, ?_⟩
      rw [hdoc]
      exact toDocument_removeNode_ne_of_isShown hcoherent hgraph hname hshown hholds hs hdoc

/-- A subgraph inside of another. -/
def innerAndOuter : Graph :=
  empty.performAll [.setName "G", .addSubgraph "G" "outer" ∅, .addSubgraph "outer" "inner" ∅]

/-- Removing an unknown name cannot be seen, and removing the name of the inner subgraph can. -/
theorem innerAndOuter_removeNode :
    innerAndOuter.Reachable ∧ innerAndOuter.isNode "unknown" = false ∧
      innerAndOuter.isNode "inner" = false ∧
      (∀ s, (innerAndOuter.removeNode "outer" "unknown").toDocument s =
        innerAndOuter.toDocument s) ∧
      ∃ s, (innerAndOuter.removeNode "outer" "inner").toDocument s ≠
        innerAndOuter.toDocument s := by
  have hreachable : innerAndOuter.Reachable := ⟨_, rfl⟩
  have hunknown : innerAndOuter.isNode "unknown" = false := by decide +kernel
  have hinner : innerAndOuter.isNode "inner" = false := by decide +kernel
  have hfree : ¬innerAndOuter.Holds "outer" "unknown" := by
    rintro ⟨-, hshown, -⟩
    revert hshown
    decide +kernel
  have hholds : innerAndOuter.IsShown "outer" ∧ innerAndOuter.Holds "outer" "inner" := by
    unfold Holds
    decide +kernel
  have hgraph : innerAndOuter.isSubgraph innerAndOuter.name = false := by decide +kernel
  have hwritten : (innerAndOuter.toDocument {}).isOk = true := by decide +kernel
  obtain ⟨doc, hdoc⟩ := exists_eq_ok_of_isOk hwritten
  refine ⟨hreachable, hunknown, hinner, ?_, ?_⟩
  · exact (toDocument_removeNode hreachable hunknown "outer").1 fun h => hfree h.2
  · exact (toDocument_removeNode hreachable hinner "outer").2 ⟨Or.inr hholds.1, hholds.2⟩ hgraph
      ⟨{}, doc, rfl, hdoc⟩

/-- Removing the node of this name, which does not exist, takes the inner subgraph to the top
level. -/
theorem innerAndOuter_moved :
    innerAndOuter.Reachable ∧ innerAndOuter.isNode "inner" = false ∧
      innerAndOuter.toDocument {} =
        .ok ⟨innerAndOuter.header, [.subgraph ⟨"outer"⟩ [] [.subgraph ⟨"inner"⟩ [] []]]⟩ ∧
      (innerAndOuter.removeNode "outer" "inner").toDocument {} =
        .ok ⟨innerAndOuter.header, [.subgraph ⟨"outer"⟩ [] [], .subgraph ⟨"inner"⟩ [] []]⟩ := by
  have hreachable : innerAndOuter.Reachable := ⟨_, rfl⟩
  exact ⟨hreachable, by decide +kernel, by decide +kernel, by decide +kernel⟩

end Graph

end DotModel
