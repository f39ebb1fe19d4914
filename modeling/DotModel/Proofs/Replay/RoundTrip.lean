import DotModel.Proofs.Replay.FixedPoint

/-!
# Round trip

A graph in which nothing is hidden, lost or left over, and whose names need no suffix, is read back
as it was written: with the same header, the same nodes, subgraphs and edges, and the same members
in each scope, in their order.  Only the order in which nodes and subgraphs are declared may change,
and empty ports are lost.
-/

namespace DotModel.Graph

open Relation

variable {g g' : Graph} {s : Settings} {limit : Nat} {expanded lost : List String}
  {places : List Place} {edges : List EdgeStmt}

/-- The same header, nodes, subgraphs, edges and memberships, with attributes, edges and the members
of each scope in the same order. -/
structure SameModel (g g' : Graph) : Prop where
  name : g'.name = g.name
  directed : g'.directed = g.directed
  strict : g'.strict = g.strict
  attrs : g'.attrs = g.attrs
  nodes : ∀ n, g'.node? n = g.node? n
  subgraphs : ∀ u, g'.subgraph? u = g.subgraph? u
  edges : g'.edges.toList = g.edges.toList
  pairs : ∀ e, e ∈ g'.relations.pairs ↔ e ∈ g.relations.pairs
  children : ∀ p, g'.children p = g.children p

/-- What is the same model without empty ports is the same model if there were none. -/
theorem SameModel.of_withoutEmptyPorts_iff (h : g.withoutEmptyPorts.SameModel g') :
    g.SameModel g' ↔ ∀ e ∈ g.edges.toList, e.IsBuilt := by
  have hedges : g'.edges.toList = g.edges.toList.map Edge.withoutEmptyPorts :=
    h.edges.trans (Edges.toList_addMany ∅ _)
  rw [← Edge.map_withoutEmptyPorts_eq_self_iff, ← hedges]
  exact ⟨SameModel.edges, fun hsame => { h with edges := hsame }⟩

/-- Nothing is hidden, lost or left over, and no name needs a suffix. -/
structure IsTidy (g : Graph) : Prop where
  /-- No name is that of a node and of a subgraph. -/
  apart : ∀ n, ¬(g.isNode n = true ∧ g.isSubgraph n = true)
  /-- The graph's name is not that of a subgraph. -/
  root : g.isSubgraph g.name = false
  /-- No name is a word for a kind of element. -/
  unreserved : ∀ n, g.IsNamed n → Literal.isElementWord n.toList = false
  /-- Steps from a scope to its members lead from the graph's name to every node and subgraph. -/
  reached : ∀ n, g.IsLive n → TransGen (fun p c => c ∈ g.children p) g.name n
  /-- Only scopes have members, and only nodes and subgraphs are members. -/
  pairs : ∀ p c, (p, c) ∈ g.relations.pairs →
    (p = g.name ∨ g.isSubgraph p = true) ∧ g.IsLive c

namespace IsTidy

variable (h : g.IsTidy)

include h

theorem isShown_iff {u : String} : g.IsShown u ↔ g.isSubgraph u = true := by
  constructor
  · exact And.left
  · intro hsub
    refine ⟨hsub, ?_⟩
    rw [← Bool.not_eq_true]
    exact fun hnode => h.apart u ⟨hnode, hsub⟩

theorem safeName_eq {n : String} (hn : g.IsNamed n) : safeName n = n :=
  safeName_of_not_isElementWord (h.unreserved n hn)

theorem isSafelyNamed : g.IsSafelyNamed := by
  intro m hm n hn heq
  rwa [h.safeName_eq hm, h.safeName_eq hn] at heq

theorem isShownScope_of_mem_children {p c : String} (hc : c ∈ g.children p) :
    g.IsShownScope p := by
  obtain ⟨hroot | hsub, -⟩ := h.pairs p c (Relations.mem_pairs_iff.mpr hc)
  · exact Or.inl hroot
  · exact Or.inr (h.isShown_iff.mpr hsub)

theorem isLive_of_mem_children {p c : String} (hc : c ∈ g.children p) : g.IsLive c :=
  (h.pairs p c (Relations.mem_pairs_iff.mpr hc)).2

/-- In a tidy graph no member is loose. -/
theorem lost_eq_nil (c : Course g limit lost places expanded) : lost = [] := by
  rw [List.eq_nil_iff_forall_not_mem]
  intro n hn
  obtain ⟨hlive, hloose⟩ := (c.mem_lost n).mp hn
  obtain ⟨p, -, hchild⟩ := TransGen.tail'_iff.mp (h.reached n hlive)
  exact hloose p (h.isShownScope_of_mem_children hchild) hchild

theorem live_children (p : String) : g.live (g.children p) = g.children p := by
  rw [live, List.filter_eq_self]
  intro c hc
  exact decide_eq_true (h.isLive_of_mem_children hc)

theorem map_safeName_children (p : String) : (g.children p).map safeName = g.children p := by
  calc
    (g.children p).map safeName = (g.children p).map id := by
      apply List.map_congr_left
      intro c hc
      exact h.safeName_eq (h.isLive_of_mem_children hc).isNamed
    _ = g.children p := List.map_id _

end IsTidy

namespace IsCopy

theorem node?_eq (h : g.IsCopy lost edges g') (hg : g.Coherent) (htidy : g.IsTidy) (n : String) :
    g'.node? n = g.node? n := by
  cases hm : g.node? n with
  | some m =>
      have hnamed : g.IsNamed n := IsLive.isNamed (Or.inl (isNode_of_node? hm))
      have hcopy := h.node?_safeName hm
      rw [htidy.safeName_eq hnamed] at hcopy
      rw [hcopy, ← hg.name_of_node? hm]
  | none =>
      rw [← isNode_eq_false_iff, ← Bool.not_eq_true]
      intro hnode
      obtain ⟨n', hn', rfl⟩ := h.exists_isNode hnode
      rw [htidy.safeName_eq (IsLive.isNamed (Or.inl hn')), ← isNode_eq_false_iff, hn'] at hm
      cases hm

theorem subgraph?_eq (h : g.IsCopy lost edges g') (hg : g.Coherent) (htidy : g.IsTidy)
    (u : String) : g'.subgraph? u = g.subgraph? u := by
  cases hm : g.subgraph? u with
  | some m =>
      have hsub : g.isSubgraph u = true := isSubgraph_eq_true_iff.mpr (OrdMap.mem_of_find? hm)
      have hcopy := h.subgraph?_safeName (htidy.isShown_iff.mpr hsub) hm
      have hname : m.name = u := hg.subgraphs u m hm
      rw [htidy.safeName_eq (IsLive.isNamed (Or.inr hsub))] at hcopy
      rw [hcopy, ← hname]
  | none =>
      rw [subgraph?, OrdMap.find?_eq_none_iff, ← isSubgraph_eq_true_iff] at hm ⊢
      intro hsub
      obtain ⟨u', hu', rfl⟩ := h.exists_isShown hsub
      rw [htidy.safeName_eq hu'.isLive.isNamed] at hm
      exact hm hu'.1

theorem children_eq (h : g.IsCopy lost edges g') (htidy : g.IsTidy) (hlost : lost = [])
    (p : String) : g'.children p = g.children p := by
  have hscope : ∀ q, g.IsShownScope q → safeName q = q := fun q hq => htidy.safeName_eq hq.isNamed
  by_cases hp : g.IsShownScope p
  · have hsafe : safeName p = p := hscope p hp
    rcases hp with rfl | hshown
    · have hroot := h.children_root
      rwa [hlost, List.append_nil, htidy.live_children, htidy.map_safeName_children, hsafe] at hroot
    · have hmembers := h.children_safeName hshown
      rwa [htidy.live_children, htidy.map_safeName_children, hsafe] at hmembers
  · have hold : g.children p = [] := by
      rw [List.eq_nil_iff_forall_not_mem]
      exact fun c hc => hp (htidy.isShownScope_of_mem_children hc)
    rw [hold, List.eq_nil_iff_forall_not_mem]
    intro c hc
    obtain ⟨q, hq, rfl⟩ := h.exists_isShownScope hc
    rw [hscope q hq] at hp
    exact hp hq

theorem edges_eq (h : g.IsCopy lost edges g') (htidy : g.IsTidy)
    (hedges : g.edgeStmts = .ok edges) :
    g'.edges.toList = g.edges.toList.map Edge.withoutEmptyPorts := by
  rw [h.edges]
  refine map_eq_map_of_mapM_ok hedges ?_
  intro e he stmt hstmt
  have hsrc : g.IsNamed e.src := Or.inr (Or.inr ⟨e, he, Or.inl rfl⟩)
  have hdst : g.IsNamed e.dst := Or.inr (Or.inr ⟨e, he, Or.inr rfl⟩)
  rw [toEdge_of_edgeStmt hstmt, htidy.safeName_eq hsrc, htidy.safeName_eq hdst]
  rfl

/-- A copy of a tidy graph is the same model without its empty ports. -/
theorem sameModel (h : g.IsCopy lost edges g') (hg : g.Coherent) (htidy : g.IsTidy)
    (hlost : lost = []) (hedges : g.edgeStmts = .ok edges) :
    g.withoutEmptyPorts.SameModel g' where
  name := h.name.trans (htidy.safeName_eq (Or.inl rfl))
  directed := h.directed
  strict := h.strict
  attrs := h.attrs
  nodes := h.node?_eq hg htidy
  subgraphs := h.subgraph?_eq hg htidy
  edges := (h.edges_eq htidy hedges).trans (Edges.toList_addMany ∅ _).symm
  pairs := by
    intro e
    have hchildren : g'.relations.children e.1 = g.relations.children e.1 :=
      h.children_eq htidy hlost e.1
    rw [← Prod.eta e, Relations.mem_pairs_iff, Relations.mem_pairs_iff, hchildren]
    rfl
  children := h.children_eq htidy hlost

end IsCopy

/-- A tidy graph is read back as it was written, without its empty ports.  So it is the same graph
exactly if no edge has an empty port. -/
theorem exists_replay_sameModel (hg : g.Reachable) (htidy : g.IsTidy) (hs : s.emitOrphans = true)
    {doc : Document} (h : g.toDocument s = .ok doc) :
    ∃ g', doc.replay = .ok g' ∧ g.withoutEmptyPorts.SameModel g' ∧
      (g.SameModel g' ↔ ∀ e ∈ g.edges.toList, e.IsBuilt) := by
  have hname : ¬g.IsShown g.name := not_isShown_of_not_isSubgraph htidy.root
  obtain ⟨lost, places, expanded, edges, c, hedges, rfl⟩ :=
    exists_course_of_toDocument hg.coherent htidy.root hs h
  obtain ⟨g', hread, hcopy⟩ := c.exists_isCopy hg.coherent htidy.isSafelyNamed hname edges
  have hsame := hcopy.sameModel hg.coherent htidy (htidy.lost_eq_nil c) hedges
  exact ⟨g', hread, hsame, hsame.of_withoutEmptyPorts_iff⟩

/-- A node inside a subgraph that two others share, attributes everywhere, and an edge. -/
def sharedNode : Graph :=
  empty.performAll [.setName "G", .setDirected true, .addAttr "G" "rankdir" "LR",
    .addSubgraph "G" "left" (OrdMap.ofList [("color", "red")]), .addSubgraph "G" "right" ∅,
    .addSubgraph "left" "shared" ∅,
    .addSubgraph "right" "shared" (OrdMap.ofList [("label", "both")]),
    .addNode "shared" "n" (OrdMap.ofList [("shape", "box"), ("label", "")]),
    .addEdge ⟨"n", some "port", "shared", none, true, OrdMap.ofList [("style", "bold")]⟩]

theorem sharedNode_isTidy : sharedNode.IsTidy where
  apart := by
    have hnodes : ∀ n ∈ sharedNode.nodes, sharedNode.isSubgraph n = false := by decide +kernel
    rintro n ⟨hnode, hsub⟩
    rw [hnodes n (isNode_eq_true_iff.mp hnode)] at hsub
    cases hsub
  root := by decide
  unreserved := by
    have hnames : ∀ n ∈ sharedNode.allNames, Literal.isElementWord n.toList = false := by
      decide +kernel
    exact fun n hn => hnames n (mem_allNames_iff.mpr hn)
  reached := by
    have hleft : TransGen (fun p c => c ∈ sharedNode.children p) "G" "left" :=
      .single (by decide +kernel)
    have hright : TransGen (fun p c => c ∈ sharedNode.children p) "G" "right" :=
      .single (by decide +kernel)
    have hshared : TransGen (fun p c => c ∈ sharedNode.children p) "G" "shared" :=
      hleft.tail (by decide +kernel)
    have hnode : TransGen (fun p c => c ∈ sharedNode.children p) "G" "n" :=
      hshared.tail (by decide +kernel)
    have hkeys : sharedNode.nodes.keys ++ sharedNode.subgraphs.keys =
        ["n", "left", "right", "shared"] := by decide +kernel
    intro n hn
    have hmem : n ∈ sharedNode.nodes.keys ++ sharedNode.subgraphs.keys :=
      List.mem_append.mpr (hn.imp isNode_eq_true_iff.mp isSubgraph_eq_true_iff.mp)
    simp only [hkeys, List.mem_cons, List.not_mem_nil, or_false] at hmem
    rcases hmem with rfl | rfl | rfl | rfl
    · exact hnode
    · exact hleft
    · exact hright
    · exact hshared
  pairs := by
    have hall : ∀ e ∈ sharedNode.relations.pairs,
        (e.1 = sharedNode.name ∨ sharedNode.isSubgraph e.1 = true) ∧ sharedNode.IsLive e.2 := by
      decide +kernel
    exact fun p c h => hall (p, c) h

theorem sharedNode_replay :
    sharedNode.Reachable ∧ sharedNode.IsTidy ∧ Settings.emitOrphans {} = true ∧
      ∃ doc, sharedNode.toDocument {} = .ok doc ∧
        ∃ g', doc.replay = .ok g' ∧ sharedNode.SameModel g' := by
  have hreachable : sharedNode.Reachable := ⟨_, rfl⟩
  have hwritten : (sharedNode.toDocument {}).isOk = true := by decide +kernel
  have hbuilt : ∀ e ∈ sharedNode.edges.toList, e.IsBuilt := by decide +kernel
  obtain ⟨doc, h⟩ := exists_eq_ok_of_isOk hwritten
  obtain ⟨g', hread, -, hiff⟩ := exists_replay_sameModel hreachable sharedNode_isTidy rfl h
  exact ⟨hreachable, sharedNode_isTidy, rfl, doc, h, g', hread, hiff.mpr hbuilt⟩

theorem emptyPort_isTidy : emptyPort.IsTidy where
  apart := by
    rintro n ⟨hnode, -⟩
    cases hnode
  root := by decide
  unreserved := by
    have hnames : ∀ n ∈ emptyPort.allNames, Literal.isElementWord n.toList = false := by
      decide +kernel
    exact fun n hn => hnames n (mem_allNames_iff.mpr hn)
  reached := by
    rintro n (hnode | hsub)
    · cases hnode
    · cases hsub
  pairs := by
    intro p c h
    cases h

/-- The graph that is read lacks the port. -/
theorem emptyPort_not_sameModel :
    emptyPort.Reachable ∧ emptyPort.IsTidy ∧ Settings.emitOrphans {} = true ∧
      ∃ doc, emptyPort.toDocument {} = .ok doc ∧
        ∃ g', doc.replay = .ok g' ∧ ¬emptyPort.SameModel g' := by
  have hreachable : emptyPort.Reachable := ⟨_, rfl⟩
  refine ⟨hreachable, emptyPort_isTidy, rfl, _, rfl, _, rfl, ?_⟩
  intro hsame
  exact absurd hsame.edges (by decide +kernel)

end DotModel.Graph
