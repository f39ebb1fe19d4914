import DotModel.Proofs.Writing.Layout
import Mathlib.Data.Set.Function

/-!
# Which members a document keeps apart

Each node statement and each block of a document, at whatever level, is written for one member of
the graph.  Two members have one identifier in the document exactly if one of them is named by a
word for a kind of element and the other by that word with the suffix: the suffix that keeps names
apart from the words for kinds of elements does not keep them apart from one another.
-/

namespace DotModel

/-! ## Identifiers -/

namespace Stmt

/-- The identifier of a node statement. -/
def nodeId? : Stmt → Option String
  | .node stmt => some stmt.node.id.text
  | _ => none

/-- The identifier of a block. -/
def blockId? : Stmt → Option String
  | .subgraph id _ _ => some id.text
  | _ => none

end Stmt

namespace Document

/-- The identifiers of the node statements, at every level. -/
def nodeIds (doc : Document) : List String :=
  (Stmt.flattenAll doc.stmts).filterMap Stmt.nodeId?

/-- The identifiers of the blocks, at every level. -/
def blockIds (doc : Document) : List String :=
  (Stmt.flattenAll doc.stmts).filterMap Stmt.blockId?

/-- Statements with one identifier were written for one member, where `nodes` and `blocks` tell for
whom the node statements and the blocks were written, one after the other. -/
structure KeepsApart (doc : Document) (nodes blocks : List String) : Prop where
  nodes : ∀ a ∈ nodes.zip doc.nodeIds, ∀ b ∈ nodes.zip doc.nodeIds, a.2 = b.2 → a.1 = b.1
  blocks : ∀ a ∈ blocks.zip doc.blockIds, ∀ b ∈ blocks.zip doc.blockIds, a.2 = b.2 → a.1 = b.1
  disjoint : ∀ id ∈ doc.nodeIds, id ∉ doc.blockIds

instance (doc : Document) (nodes blocks : List String) :
    Decidable (doc.KeepsApart nodes blocks) :=
  decidable_of_iff
    ((∀ a ∈ nodes.zip doc.nodeIds, ∀ b ∈ nodes.zip doc.nodeIds, a.2 = b.2 → a.1 = b.1) ∧
      (∀ a ∈ blocks.zip doc.blockIds, ∀ b ∈ blocks.zip doc.blockIds, a.2 = b.2 → a.1 = b.1) ∧
      ∀ id ∈ doc.nodeIds, id ∉ doc.blockIds)
    ⟨fun h => ⟨h.1, h.2.1, h.2.2⟩, fun h => ⟨h.nodes, h.blocks, h.disjoint⟩⟩

end Document

namespace Place

variable {places : List Place}

/-- The node that stands here. -/
def nodeName? : Place → Option String
  | .node name => some name
  | .body _ _ | .mention _ => none

/-- The subgraph that stands here. -/
def blockName? : Place → Option String
  | .node _ => none
  | .body name _ | .mention name => some name

/-- The nodes of all places, in the order of the document. -/
def nodeNames (places : List Place) : List String := (flattenAll places).filterMap nodeName?

/-- The subgraphs of all places, in the order of the document. -/
def blockNames (places : List Place) : List String := (flattenAll places).filterMap blockName?

theorem mem_names_iff {name : String} :
    name ∈ (flattenAll places).map Place.name ↔
      name ∈ nodeNames places ∨ name ∈ blockNames places := by
  simp only [nodeNames, blockNames, List.mem_map, List.mem_filterMap, ← exists_or, ← and_or_left]
  refine exists_congr fun place => and_congr_right fun _ => ?_
  cases place <;> simp [Place.name, nodeName?, blockName?]

end Place

namespace Graph

variable {g : Graph} {layout : List Place} {edges : List EdgeStmt} {doc : Document}

theorem Coherent.nodeId?_toStmt (hg : g.Coherent) (place : Place) :
    (place.toStmt g).nodeId? = place.nodeName?.map safeName := by
  cases place with
  | node name =>
      have hname : ((g.node? name).getD ⟨name, ∅⟩).name = name := by
        cases hm : g.node? name with
        | none => rfl
        | some m => exact hg.name_of_node? hm
      rw [Place.toStmt, nodeStmt, hname]
      rfl
  | body name inside => rfl
  | mention name => rfl

theorem blockId?_toStmt (g : Graph) (place : Place) :
    (place.toStmt g).blockId? = place.blockName?.map safeName := by
  cases place <;> rfl

theorem Coherent.nodeIds_eq (hg : g.Coherent)
    (hstmts : doc.stmts =
      (attrStmts g.name g.attrs).map .attr ++ Place.toStmts g layout ++ edges.map .edge) :
    doc.nodeIds = (Place.nodeNames layout).map safeName := by
  rw [Document.nodeIds, filterMap_flattenAll hstmts (fun _ => rfl) fun _ => rfl,
    Place.nodeNames, List.map_filterMap]
  simp only [hg.nodeId?_toStmt]

theorem blockIds_eq
    (hstmts : doc.stmts =
      (attrStmts g.name g.attrs).map .attr ++ Place.toStmts g layout ++ edges.map .edge) :
    doc.blockIds = (Place.blockNames layout).map safeName := by
  rw [Document.blockIds, filterMap_flattenAll hstmts (fun _ => rfl) fun _ => rfl,
    Place.blockNames, List.map_filterMap]
  simp only [blockId?_toStmt]

end Graph

/-! ## Clashes -/

/-- Names are written differently as long as none is a word for a kind of element and another that
word with the suffix. -/
theorem injOn_safeName_iff {names : Set String} :
    Set.InjOn safeName names ↔ ∀ m ∈ names, ∀ n ∈ names, ¬Clash m n := by
  constructor
  · intro h m hm n hn hclash
    exact hclash.ne (h hm hn hclash.safeName_eq)
  · intro h m hm n hn heq
    rcases safeName_eq_iff.mp heq with heq | hclash | hclash
    · exact heq
    · exact absurd hclash (h m hm n hn)
    · exact absurd hclash (h n hn m hm)

theorem forall_zip_map_iff {names : List String} :
    (∀ a ∈ names.zip (names.map safeName), ∀ b ∈ names.zip (names.map safeName),
        a.2 = b.2 → a.1 = b.1) ↔ Set.InjOn safeName {n | n ∈ names} := by
  simp only [← List.map_prod_left_eq_zip, List.forall_mem_map]
  rfl

/-- Members of different kinds have different names, so they are kept apart exactly if all names are
written differently. -/
theorem Document.keepsApart_iff {doc : Document} {nodes blocks : List String}
    (hnodes : doc.nodeIds = nodes.map safeName) (hblocks : doc.blockIds = blocks.map safeName)
    (hkinds : ∀ n ∈ nodes, n ∉ blocks) :
    doc.KeepsApart nodes blocks ↔ Set.InjOn safeName {n | n ∈ nodes ∨ n ∈ blocks} := by
  have hunion : {n | n ∈ nodes ∨ n ∈ blocks} = {n | n ∈ nodes} ∪ {n | n ∈ blocks} := rfl
  have hdisjoint : Disjoint {n | n ∈ nodes} {n | n ∈ blocks} := Set.disjoint_left.mpr hkinds
  have hids : (∀ id ∈ doc.nodeIds, id ∉ doc.blockIds) ↔
      ∀ m ∈ nodes, ∀ n ∈ blocks, safeName m ≠ safeName n := by
    rw [hnodes, hblocks, List.forall_mem_map]
    simp only [List.mem_map, not_exists, not_and, ne_comm, ne_eq]
  rw [hunion, Set.injOn_union hdisjoint, ← forall_zip_map_iff, ← forall_zip_map_iff, ← hnodes,
    ← hblocks]
  constructor
  · rintro ⟨hn, hb, hapart⟩
    exact ⟨hn, hb, hids.mp hapart⟩
  · rintro ⟨hn, hb, hapart⟩
    exact ⟨hn, hb, hids.mpr hapart⟩

namespace Graph

variable {g : Graph} {s : Settings} {layout : List Place} {name : String}

namespace IsLayout

theorem isNode_of_mem (h : g.IsLayout layout) (hname : name ∈ Place.nodeNames layout) :
    g.isNode name = true := by
  obtain ⟨place, hplace, hnode⟩ := List.mem_filterMap.mp hname
  have hfits := h.fits place hplace
  cases place with
  | node n =>
      cases hnode
      exact hfits
  | body n inside => cases hnode
  | mention n => cases hnode

theorem isShown_of_mem (h : g.IsLayout layout) (hname : name ∈ Place.blockNames layout) :
    g.IsShown name := by
  obtain ⟨place, hplace, hblock⟩ := List.mem_filterMap.mp hname
  have hfits := h.fits place hplace
  cases place with
  | node n => cases hblock
  | body n inside =>
      cases hblock
      exact hfits.1
  | mention n =>
      cases hblock
      exact hfits

theorem isLive_of_mem (h : g.IsLayout layout)
    (hname : name ∈ (Place.flattenAll layout).map Place.name) : g.IsLive name := by
  rw [isLive_iff]
  exact (Place.mem_names_iff.mp hname).imp h.isNode_of_mem h.isShown_of_mem

end IsLayout

/-- A document keeps the members apart that it shows unless one is named by a word for a kind of
element and another by that word with the suffix.  With orphans it shows all live members. -/
theorem exists_layout_keepsApart_iff (hg : g.Reachable) {doc : Document}
    (h : g.toDocument s = .ok doc) :
    ∃ (layout : List Place) (edges : List EdgeStmt),
      doc.stmts =
        (attrStmts g.name g.attrs).map .attr ++ Place.toStmts g layout ++ edges.map .edge ∧
      g.IsLayout layout ∧
      doc.nodeIds = (Place.nodeNames layout).map safeName ∧
      doc.blockIds = (Place.blockNames layout).map safeName ∧
      (doc.KeepsApart (Place.nodeNames layout) (Place.blockNames layout) ↔
        ∀ m ∈ (Place.flattenAll layout).map Place.name,
          ∀ n ∈ (Place.flattenAll layout).map Place.name, ¬Clash m n) ∧
      (s.emitOrphans = true →
        (doc.KeepsApart (Place.nodeNames layout) (Place.blockNames layout) ↔
          ∀ m n, g.IsLive m → g.IsLive n → ¬Clash m n)) := by
  obtain ⟨layout, edges, hstmts, hlayout, hall⟩ := exists_isLayout_of_toDocument hg.coherent h
  have hnodes := hg.coherent.nodeIds_eq hstmts
  have hblocks := blockIds_eq hstmts
  have hkinds : ∀ n ∈ Place.nodeNames layout, n ∉ Place.blockNames layout := fun n hn hb =>
    (hlayout.isShown_of_mem hb).not_isNode (hlayout.isNode_of_mem hn)
  have hapart : doc.KeepsApart (Place.nodeNames layout) (Place.blockNames layout) ↔
      ∀ m ∈ (Place.flattenAll layout).map Place.name,
        ∀ n ∈ (Place.flattenAll layout).map Place.name, ¬Clash m n := by
    rw [Document.keepsApart_iff hnodes hblocks hkinds, injOn_safeName_iff]
    simp only [Place.mem_names_iff, Set.mem_ofPred_eq]
  refine ⟨layout, edges, hstmts, hlayout, hnodes, hblocks, hapart, ?_⟩
  intro hs
  rw [hapart]
  have hlive : ∀ n, n ∈ (Place.flattenAll layout).map Place.name ↔ g.IsLive n := fun n =>
    ⟨hlayout.isLive_of_mem, hall hs n⟩
  simp only [hlive]
  exact ⟨fun hclash m n hm hn => hclash m hm n hn, fun hclash m hm n hn => hclash m n hm hn⟩

/-- Names with the suffix beside words for kinds of elements, in another case. -/
def nearKeywords : Graph :=
  empty.performAll [.setName "Graph", .addNode "Graph" "graph" ∅, .addNode "Graph" "GRAPH" ∅,
    .addNode "Graph" "GraphTYPE" ∅, .addSubgraph "Graph" "node" ∅, .addSubgraph "node" "NODEtype" ∅,
    .addNode "gone" "nodeTYPETYPE" ∅]

theorem nearKeywords_keepsApart :
    nearKeywords.Reachable ∧ ∃ doc, nearKeywords.toDocument {} = .ok doc ∧
      ∃ layout, nearKeywords.IsLayout layout ∧
        doc.KeepsApart (Place.nodeNames layout) (Place.blockNames layout) := by
  have hreachable : nearKeywords.Reachable := ⟨_, rfl⟩
  have hwritten : (nearKeywords.toDocument {}).isOk = true := by decide +kernel
  obtain ⟨doc, h⟩ := exists_eq_ok_of_isOk hwritten
  obtain ⟨layout, _, -, hlayout, -, -, -, hapart⟩ := exists_layout_keepsApart_iff hreachable h
  have hnames : ∀ n, nearKeywords.IsLive n →
      n ∈ nearKeywords.nodes.keys ++ nearKeywords.subgraphs.keys := by
    intro n hn
    rwa [IsLive, isNode_eq_true_iff, isSubgraph_eq_true_iff, OrdMap.mem_def, OrdMap.mem_def,
      ← List.mem_append] at hn
  have hclash : ∀ m ∈ nearKeywords.nodes.keys ++ nearKeywords.subgraphs.keys,
      ∀ n ∈ nearKeywords.nodes.keys ++ nearKeywords.subgraphs.keys, ¬Clash m n := by
    decide +kernel
  exact ⟨hreachable, doc, h, layout, hlayout, (hapart rfl).mpr fun m n hm hn =>
    hclash m (hnames m hm) n (hnames n hn)⟩

/-- Two nodes, two subgraphs, and a node and a subgraph, of which one is named by a word for a kind
of element and the other by that word with the suffix. -/
def keywordPairs : Graph :=
  empty.performAll [.setName "G", .addNode "G" "graph" ∅, .addNode "G" "graphTYPE" ∅,
    .addSubgraph "G" "node" ∅, .addSubgraph "G" "nodeTYPE" ∅, .addNode "G" "edge" ∅,
    .addSubgraph "G" "edgeTYPE" ∅]

/-- The members of `keywordPairs` in their order. -/
def keywordPairsLayout : List Place :=
  [.node "graph", .node "graphTYPE", .body "node" [], .body "nodeTYPE" [], .node "edge",
    .body "edgeTYPE" []]

/-- What is written for different members need not differ. -/
theorem keywordPairs_merged :
    keywordPairs.Reachable ∧ keywordPairs.IsLayout keywordPairsLayout ∧
      ∃ doc, keywordPairs.toDocument {} = .ok doc ∧
        doc.stmts = Place.toStmts keywordPairs keywordPairsLayout ∧
        doc.nodeIds = ["graphTYPE", "graphTYPE", "edgeTYPE"] ∧
        doc.blockIds = ["nodeTYPE", "nodeTYPE", "edgeTYPE"] ∧
        ¬doc.KeepsApart (Place.nodeNames keywordPairsLayout)
          (Place.blockNames keywordPairsLayout) := by
  have hreachable : keywordPairs.Reachable := ⟨_, rfl⟩
  have hlayout : keywordPairs.IsLayout keywordPairsLayout := by decide +kernel
  have hdoc : keywordPairs.toDocument {} =
      .ok ⟨keywordPairs.header, Place.toStmts keywordPairs keywordPairsLayout⟩ := by decide +kernel
  exact ⟨hreachable, hlayout, _, hdoc, rfl, by decide +kernel, by decide +kernel,
    by decide +kernel⟩

end Graph

end DotModel
