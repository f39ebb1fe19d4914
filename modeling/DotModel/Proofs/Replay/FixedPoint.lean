import DotModel.Proofs.Replay.Copy
import DotModel.Proofs.Replay.EmptyPorts

/-!
# Writing what was read

A copy is written as the graph was.  Along the names of the copy there is a walk that takes the
steps of the walk along the graph's own names; it reaches everything, so that the copy has no
orphans; and the ends of its edges are of the same kinds.  There are two differences: attribute
statements tell the scope by its safe name, and empty ports, which only an edge that was added as it
is can have, are gone.
-/

namespace DotModel

/-- The statement with its scope told by the safe name. -/
def AttrStmt.withSafeScope (a : AttrStmt) : AttrStmt := { a with scope := safeName a.scope }

namespace Stmt

mutual

/-- The statement with the scopes of all attributes in it told by their safe names. -/
def withSafeScopes : Stmt → Stmt
  | .attr stmt => .attr stmt.withSafeScope
  | .node stmt => .node stmt
  | .edge stmt => .edge stmt
  | .subgraph id attrs body =>
    .subgraph id (attrs.map AttrStmt.withSafeScope) (withSafeScopesAll body)

/-- The statements with the scopes of all attributes in them told by their safe names. -/
def withSafeScopesAll : List Stmt → List Stmt
  | [] => []
  | s :: rest => withSafeScopes s :: withSafeScopesAll rest

end

theorem withSafeScopesAll_eq_map (stmts : List Stmt) :
    withSafeScopesAll stmts = stmts.map withSafeScopes := by
  induction stmts with
  | nil => rfl
  | cons s rest ih => rw [withSafeScopesAll, ih, List.map_cons]

theorem map_withSafeScopes_attr (stmts : List AttrStmt) :
    (stmts.map Stmt.attr).map withSafeScopes = (stmts.map AttrStmt.withSafeScope).map .attr := by
  rw [List.map_map, List.map_map]
  rfl

theorem map_withSafeScopes_edge (stmts : List EdgeStmt) :
    (stmts.map Stmt.edge).map withSafeScopes = stmts.map .edge := by
  rw [List.map_map]
  rfl

end Stmt

/-- The document with the scopes of all attributes told by their safe names. -/
def Document.withSafeScopes (doc : Document) : Document :=
  { doc with stmts := Stmt.withSafeScopesAll doc.stmts }

/-- The edges of a document are the same whether or not its scopes are told by their safe names. -/
theorem Document.withSafeScopes_eq_iff {header : Header} {stmts : List Stmt}
    {edges edges' : List EdgeStmt} :
    withSafeScopes ⟨header, stmts ++ edges.map .edge⟩ =
        withSafeScopes ⟨header, stmts ++ edges'.map .edge⟩ ↔ edges = edges' := by
  have hinj : Function.Injective Stmt.edge := fun _ _ => Stmt.edge.inj
  simp only [withSafeScopes, Stmt.withSafeScopesAll_eq_map, List.map_append,
    Stmt.map_withSafeScopes_edge, mk.injEq, true_and, List.append_cancel_left_eq]
  exact (List.map_injective_iff.mpr hinj).eq_iff

namespace Graph

variable {g g' : Graph} {s : Settings} {room limit : Nat}
  {path names expanded expanded' lost : List String} {places : List Place}
  {edges : List EdgeStmt} {name : String} {before after : Progress}

theorem map_withSafeScope_attrStmts (scope : String) (attrs : Attributes) :
    (attrStmts (safeName scope) attrs).map AttrStmt.withSafeScope =
      (attrStmts scope attrs).map AttrStmt.withSafeScope := by
  simp [attrStmts, AttrStmt.withSafeScope]

theorem IsSafelyNamed.mem_map_iff (hsafe : g.IsSafelyNamed) (hnames : ∀ n ∈ names, g.IsNamed n)
    (hname : g.IsNamed name) : safeName name ∈ names.map safeName ↔ name ∈ names := by
  constructor
  · intro h
    obtain ⟨n, hn, heq⟩ := List.mem_map.mp h
    have hsame : n = name := hsafe.eq (hnames n hn) hname heq
    exact hsame ▸ hn
  · exact List.mem_map_of_mem

namespace IsCopy

theorem isNode_safeName_iff (h : g.IsCopy lost edges g') (hsafe : g.IsSafelyNamed)
    (hname : g.IsNamed name) : g'.isNode (safeName name) = true ↔ g.isNode name = true := by
  constructor
  · intro hnode
    obtain ⟨n, hn, heq⟩ := h.exists_isNode hnode
    have hlive : g.IsLive n := Or.inl hn
    have hsame : name = n := hsafe.eq hname hlive.isNamed heq
    exact hsame ▸ hn
  · intro hnode
    obtain ⟨m, hm⟩ := exists_node?_of_isNode hnode
    exact isNode_of_node? (h.node?_safeName hm)

theorem isShown_safeName_iff (h : g.IsCopy lost edges g') (hsafe : g.IsSafelyNamed)
    (hname : g.IsNamed name) : g'.IsShown (safeName name) ↔ g.IsShown name := by
  constructor
  · intro hshown
    obtain ⟨u, hu, heq⟩ := h.exists_isShown hshown.1
    have hsame : name = u := hsafe.eq hname hu.isLive.isNamed heq
    exact hsame ▸ hu
  · intro hshown
    obtain ⟨m, hm⟩ := exists_subgraph?_of_isShown hshown
    refine ⟨?_, ?_⟩
    · exact isSubgraph_eq_true_iff.mpr (OrdMap.mem_of_find? (h.subgraph?_safeName hshown hm))
    · rw [← Bool.not_eq_true, h.isNode_safeName_iff hsafe hname, Bool.not_eq_true]
      exact hshown.2

/-! ## Members -/

theorem toStmt_node_safeName (h : g.IsCopy lost edges g') (hg : g.Coherent) {m : Member}
    (hm : g.node? name = some m) :
    Place.toStmt g' (.node (safeName name)) = Place.toStmt g (.node name) := by
  rw [h.coherent.toStmt_node (h.node?_safeName hm), hg.toStmt_node hm, Ident.ofName_safeName]

theorem toStmt_mention_safeName (g g' : Graph) (name : String) :
    Place.toStmt g' (.mention (safeName name)) = Place.toStmt g (.mention name) := by
  rw [Place.toStmt, Place.toStmt, Ident.ofName_safeName]

theorem withSafeScopes_body_safeName (h : g.IsCopy lost edges g') (hshown : g.IsShown name)
    {inside inside' : List Place}
    (hinside : Stmt.withSafeScopesAll (Place.toStmts g' inside') =
      Stmt.withSafeScopesAll (Place.toStmts g inside)) :
    Stmt.withSafeScopes (Place.toStmt g' (.body (safeName name) inside')) =
      Stmt.withSafeScopes (Place.toStmt g (.body name inside)) := by
  obtain ⟨m, hm⟩ := exists_subgraph?_of_isShown hshown
  rw [toStmt_body (h.subgraph?_safeName hshown hm), toStmt_body hm, Stmt.withSafeScopes,
    Stmt.withSafeScopes, hinside, map_withSafeScope_attrStmts, Ident.ofName_safeName]

/-- Along the names of a copy there is a walk with the same steps. -/
theorem exists_walk (h : g.IsCopy lost edges g') (hg : g.Coherent) (hsafe : g.IsSafelyNamed)
    (w : Walk g room path names expanded places expanded')
    (hpath : ∀ n ∈ path, g.IsShownScope n) (hexpanded : ∀ n ∈ expanded, g.IsShown n) :
    ∃ places', Walk g' room (path.map safeName) ((g.live names).map safeName)
        (expanded.map safeName) places' (expanded'.map safeName) ∧
      Stmt.withSafeScopesAll (Place.toStmts g' places') =
        Stmt.withSafeScopesAll (Place.toStmts g places) := by
  have hmem : ∀ {n : String} {l : List String}, g.IsShown n → (∀ m ∈ l, g.IsShownScope m) →
      (safeName n ∈ l.map safeName ↔ n ∈ l) := fun hn hl =>
    hsafe.mem_map_iff (fun m hm => (hl m hm).isNamed) hn.isLive.isNamed
  induction w with
  | nil => exact ⟨[], .nil, rfl⟩
  | @node _ _ name _ _ _ _ hnode _ ih =>
      obtain ⟨places', w', hstmts⟩ := ih hpath hexpanded
      obtain ⟨m, hm⟩ := exists_node?_of_isNode hnode
      rw [live_cons_of_live (Or.inl hnode), List.map_cons]
      refine ⟨.node (safeName name) :: places',
        .node (isNode_of_node? (h.node?_safeName hm)) w', ?_⟩
      rw [Place.toStmts_cons, Place.toStmts_cons, Stmt.withSafeScopesAll, Stmt.withSafeScopesAll,
        hstmts, h.toStmt_node_safeName hg hm]
  | skip hlive _ ih =>
      rw [live_cons_of_not_live hlive]
      exact ih hpath hexpanded
  | @mention _ _ name _ _ _ _ hshown hopen hold _ ih =>
      obtain ⟨places', w', hstmts⟩ := ih hpath hexpanded
      have hcopy : g'.IsShown (safeName name) :=
        (h.isShown_safeName_iff hsafe hshown.isLive.isNamed).mpr hshown
      rw [live_cons_of_live hshown.isLive, List.map_cons]
      refine ⟨.mention (safeName name) :: places', .mention hcopy ?_ ?_ w', ?_⟩
      · exact fun hmap => hopen ((hmem hshown hpath).mp hmap)
      · exact List.mem_map_of_mem hold
      · rw [Place.toStmts_cons, Place.toStmts_cons, Stmt.withSafeScopesAll,
          Stmt.withSafeScopesAll, hstmts, toStmt_mention_safeName g g']
  | @body room path name names expanded inside between places expanded' hshown hopen hnew inner
      rest ihinner ihrest =>
      have hinnerpath : ∀ n ∈ name :: path, g.IsShownScope n := by
        rw [List.forall_mem_cons]
        exact ⟨Or.inr hshown, hpath⟩
      have hinnerexpanded : ∀ n ∈ name :: expanded, g.IsShown n := by
        rw [List.forall_mem_cons]
        exact ⟨hshown, hexpanded⟩
      obtain ⟨inside', winner, hinside⟩ := ihinner hinnerpath hinnerexpanded
      obtain ⟨places', wrest, hrest⟩ := ihrest hpath (inner.forall_isShown hinnerexpanded)
      have hcopy : g'.IsShown (safeName name) :=
        (h.isShown_safeName_iff hsafe hshown.isLive.isNamed).mpr hshown
      rw [← h.children_safeName hshown, List.map_cons, List.map_cons] at winner
      rw [live_cons_of_live hshown.isLive, List.map_cons]
      refine ⟨.body (safeName name) inside' :: places', .body hcopy ?_ ?_ winner wrest, ?_⟩
      · exact fun hmap => hopen ((hmem hshown hpath).mp hmap)
      · exact fun hmap => hnew ((hmem hshown fun n hn => Or.inr (hexpanded n hn)).mp hmap)
      · rw [Place.toStmts_cons, Place.toStmts_cons, Stmt.withSafeScopesAll,
          Stmt.withSafeScopesAll, hrest, h.withSafeScopes_body_safeName hshown hinside]

end IsCopy

/-! ## Edges -/

/-- The edge that the statement of an edge describes has the safe names of the ends, and no empty
ports. -/
theorem toEdge_of_edgeStmt {e : Edge} {stmt : EdgeStmt} (h : g.edgeStmt e = .ok stmt) :
    stmt.toEdge = { e.withoutEmptyPorts with src := safeName e.src, dst := safeName e.dst } := by
  obtain ⟨src, dst, hsrc, hdst, rfl⟩ := edgeStmt_ok_cases h
  obtain ⟨hsrcname, hsrcport⟩ := name_and_port_of_endpoint hsrc
  obtain ⟨hdstname, hdstport⟩ := name_and_port_of_endpoint hdst
  rw [EdgeStmt.toEdge, hsrcname, hsrcport, hdstname, hdstport, Attributes.ofAttrs_attrList]
  rfl

namespace IsCopy

theorem endpoint_safeName (h : g.IsCopy lost edges g') (hsafe : g.IsSafelyNamed)
    (hname : g.IsNamed name) {port : Option String} {e : Endpoint}
    (he : g.endpoint name port = .ok e) :
    g'.endpoint (safeName name) (Edge.port? port) = .ok e.withoutEmptyPort := by
  have hkind := h.isShown_safeName_iff hsafe hname
  by_cases hshown : g.IsShown name
  · rw [endpoint_of_isShown hshown] at he
    cases port with
    | some port => cases he
    | none =>
        cases he
        rw [endpoint_of_isShown (hkind.mpr hshown), Ident.ofName_safeName]
        rfl
  · rw [endpoint_of_not_isShown hshown] at he
    cases he
    have hcopy : ¬g'.IsShown (safeName name) := fun hs => hshown (hkind.mp hs)
    rw [endpoint_of_not_isShown hcopy, Ident.ofName_safeName]
    rfl

theorem edgeStmts_eq (h : g.IsCopy lost edges g') (hsafe : g.IsSafelyNamed)
    (hedges : g.edgeStmts = .ok edges) :
    g'.edgeStmts = .ok (edges.map EdgeStmt.withoutEmptyPorts) := by
  rw [edgeStmts, h.edges]
  apply mapM_map_eq_pure_map
  intro stmt hstmt
  obtain ⟨e, he, hwritten⟩ := exists_mem_of_mapM_ok hedges hstmt
  have hsrcnamed : g.IsNamed e.src := Or.inr (Or.inr ⟨e, he, Or.inl rfl⟩)
  have hdstnamed : g.IsNamed e.dst := Or.inr (Or.inr ⟨e, he, Or.inr rfl⟩)
  rw [toEdge_of_edgeStmt hwritten]
  obtain ⟨src, dst, hsrc, hdst, rfl⟩ := edgeStmt_ok_cases hwritten
  rw [edgeStmt, Edge.withoutEmptyPorts, Edge.withPorts, h.endpoint_safeName hsafe hsrcnamed hsrc,
    ok_bind, h.endpoint_safeName hsafe hdstnamed hdst, ok_bind]
  rfl

end IsCopy

/-! ## Orphans -/

theorem orphanBlocks_eq_nil (h : ∀ u, g.IsShown u → u ∈ before.expanded) :
    g.orphanBlocks limit before = .ok ([], before) := by
  have hnone : ∀ n, g.isPending before.expanded n = false := by
    intro n
    rw [← Bool.not_eq_true, isPending_eq_true_iff]
    exact fun hn => hn.1 (h n hn.2)
  rw [orphanBlocks_eq, pendingBlocks_eq_nil hnone, ok_bind, pendingBlocks_eq_nil hnone, ok_bind]
  rfl

namespace IsCopy

theorem looseNodes_eq_nil (h : g.IsCopy lost edges g') (c : Course g limit lost places expanded)
    (hwritten : after.HasWritten g') (hexpanded : after.expanded = expanded.map safeName) :
    g'.looseNodes after.written = [] := by
  rw [looseNodes, List.filter_eq_nil_iff]
  intro x hx
  have hnode : g'.isNode x = true := isNode_eq_true_iff.mpr (OrdMap.mem_def.mpr hx)
  obtain ⟨n, hn, rfl⟩ := h.exists_isNode hnode
  have hlive : g.IsLive n := Or.inl hn
  have hplaced : safeName n ∈ after.written := by
    rw [hwritten, hexpanded]
    refine ⟨hnode, ?_⟩
    have hroot : n ∈ g.live (g.children g.name) ++ lost →
        safeName n ∈ g'.children (safeName g.name) := by
      intro hmem
      rw [h.children_root]
      exact List.mem_map_of_mem hmem
    obtain ⟨p, -, hp⟩ := c.exists_mem_nestings hlive
    obtain ⟨-, ⟨rfl | hshown, hchild⟩ | ⟨rfl, hloose⟩⟩ := c.mem_nestings_iff.mp hp
    · refine ⟨safeName g.name, Or.inl h.name.symm, hroot ?_⟩
      exact List.mem_append_left lost (mem_live_iff.mpr ⟨hchild, hlive⟩)
    · refine ⟨safeName p, Or.inr (List.mem_map_of_mem (c.complete p hshown)), ?_⟩
      rw [h.children_safeName hshown]
      exact List.mem_map_of_mem (mem_live_iff.mpr ⟨hchild, hlive⟩)
    · refine ⟨safeName g.name, Or.inl h.name.symm, hroot ?_⟩
      exact List.mem_append_right _ ((c.mem_lost n).mpr ⟨hlive, hloose⟩)
  simpa using hplaced

/-! ## Documents -/

theorem header_eq (h : g.IsCopy lost edges g') : g'.header = g.header := by
  rw [header, header, h.name, h.directed, h.strict]
  simp only [safeName_eq_empty_iff, Ident.ofName_safeName]

/-- A copy is written as the graph was, but for empty ports. -/
theorem exists_toDocument (h : g.IsCopy lost edges g') (hg : g.Coherent)
    (hsafe : g.IsSafelyNamed) (hs : s.emitOrphans = true)
    (c : Course g s.maxDepth lost places expanded) (hedges : g.edgeStmts = .ok edges) :
    ∃ doc, g'.toDocument s = .ok doc ∧ doc.withSafeScopes =
      Document.withSafeScopes ⟨g.header, (attrStmts g.name g.attrs).map .attr ++
        Place.toStmts g places ++ (edges.map EdgeStmt.withoutEmptyPorts).map .edge⟩ := by
  have hroot : ∀ n ∈ [g.name], g.IsShownScope n := by
    intro n hn
    exact Or.inl (List.mem_singleton.mp hn)
  obtain ⟨places', w, hstmts⟩ := h.exists_walk hg hsafe c.walk hroot (by simp)
  rw [List.map_singleton, List.map_nil, c.live_names, ← h.children_root, ← h.name] at w
  obtain ⟨after, hexpanded, hmembers⟩ : ∃ after : Progress,
      after.expanded = expanded.map safeName ∧
        g'.rootStmts s.maxDepth = .ok (Place.toStmts g' places', after) :=
    ⟨_, rfl, w.memberStmts_eq s.maxDepth []⟩
  have hblocks : g'.orphanBlocks s.maxDepth after = .ok ([], after) := by
    apply orphanBlocks_eq_nil
    intro x hx
    obtain ⟨u, hu, rfl⟩ := h.exists_isShown hx.1
    rw [hexpanded]
    exact List.mem_map_of_mem (c.complete u hu)
  have hwritten : after.HasWritten g' := hasWritten_of_rootStmts h.coherent hmembers
  have hnodes : g'.orphanNodes after.written = [] := by
    rw [h.coherent.orphanNodes_eq, h.looseNodes_eq_nil c hwritten hexpanded]
    rfl
  have hdoc : g'.toDocument s = .ok ⟨g'.header, (attrStmts g'.name g'.attrs).map .attr ++
      Place.toStmts g' places' ++ (edges.map EdgeStmt.withoutEmptyPorts).map .edge⟩ := by
    rw [toDocument_eq, outline_eq_of_orphans hs, hmembers, ok_bind, hblocks, ok_bind, hnodes,
      ok_bind, h.edgeStmts_eq hsafe hedges, ok_bind]
    simp [Outline.stmts]
  have hattrs : ((attrStmts g'.name g'.attrs).map Stmt.attr).map Stmt.withSafeScopes =
      ((attrStmts g.name g.attrs).map Stmt.attr).map Stmt.withSafeScopes := by
    rw [h.name, h.attrs, Stmt.map_withSafeScopes_attr, Stmt.map_withSafeScopes_attr,
      map_withSafeScope_attrStmts]
  refine ⟨_, hdoc, ?_⟩
  rw [Document.withSafeScopes, Document.withSafeScopes, h.header_eq]
  simp only [Stmt.withSafeScopesAll_eq_map, List.map_append, hattrs] at hstmts ⊢
  rw [hstmts]

end IsCopy

/-- Writing is a fixed point of reading up to empty ports.  A written document can be read, and the
graph that it describes is written as the same document without its empty ports, up to the spelling
of the scopes of attributes.  So it is the very document exactly if no edge of the graph has an
empty port, as is the case if each was added by its ends and its ports. -/
theorem exists_replay_of_toDocument (hg : g.Reachable) (hname : g.isSubgraph g.name = false)
    (hsafe : g.IsSafelyNamed) (hs : s.emitOrphans = true) {doc : Document}
    (h : g.toDocument s = .ok doc) :
    ∃ g', doc.replay = .ok g' ∧ ∃ doc', g'.toDocument s = .ok doc' ∧
      doc'.withSafeScopes = doc.withoutEmptyPorts.withSafeScopes ∧
      (doc'.withSafeScopes = doc.withSafeScopes ↔ ∀ e ∈ g.edges.toList, e.IsBuilt) := by
  have hshown : ¬g.IsShown g.name := not_isShown_of_not_isSubgraph hname
  obtain ⟨lost, places, expanded, edges, c, hedges, rfl⟩ :=
    exists_course_of_toDocument hg.coherent hname hs h
  obtain ⟨g', hread, hcopy⟩ := c.exists_isCopy hg.coherent hsafe hshown edges
  obtain ⟨doc', hdoc', heq⟩ := hcopy.exists_toDocument hg.coherent hsafe hs c hedges
  refine ⟨g', hread, doc', hdoc', ?_, ?_⟩
  · rw [heq, Document.withoutEmptyPorts, List.map_append, List.map_append,
      Stmt.map_withoutEmptyPorts_attr, Stmt.map_withoutEmptyPorts_toStmts,
      Stmt.map_withoutEmptyPorts_edge]
  · rw [heq, Document.withSafeScopes_eq_iff, map_edgeStmts_withoutEmptyPorts_eq_self_iff hedges]

/-- A graph with a word for a name, a subgraph in two scopes, one that a node hides, a node whose
scope does not exist, a member that is gone, and an edge from a port to a subgraph. -/
def everyKind : Graph :=
  empty.performAll [.setName "graph",
    .addSubgraph "graph" "left" (OrdMap.ofList [("color", "red")]),
    .addSubgraph "graph" "right" ∅, .addSubgraph "left" "shared" ∅,
    .addSubgraph "right" "shared" (OrdMap.ofList [("label", "both")]),
    .addNode "shared" "n" (OrdMap.ofList [("shape", "box")]), .addSubgraph "right" "hidden" ∅,
    .addNode "left" "hidden" ∅, .addNode "gone" "lost" ∅, .addNode "left" "late" ∅,
    .removeNode "right" "late",
    .addEdge ⟨"n", some "port", "shared", none, true, OrdMap.ofList [("style", "bold")]⟩]

/-- Its document: the second block of `shared` is empty, `hidden` stands for the node in both
scopes, `lost` has come to the top level, and nothing is left of `late`, which its removal took
away. -/
def everyKindDocument : Document where
  header := ⟨some (.ofName "graph"), false, false⟩
  stmts :=
    [.subgraph (.ofName "left") [⟨"left", .verbatim "color", .verbatim "red"⟩]
        [.subgraph (.ofName "shared") [⟨"shared", .verbatim "label", .verbatim "both"⟩]
            [.node ⟨⟨.ofName "n", none⟩, [⟨.verbatim "shape", .verbatim "box"⟩]⟩],
          .node ⟨⟨.ofName "hidden", none⟩, []⟩],
      .subgraph (.ofName "right") []
        [.subgraph (.ofName "shared") [] [], .node ⟨⟨.ofName "hidden", none⟩, []⟩],
      .node ⟨⟨.ofName "lost", none⟩, []⟩,
      .edge ⟨.node ⟨.ofName "n", some "port"⟩, .subgraph (.ofName "shared"), true,
        [⟨.verbatim "style", .verbatim "bold"⟩]⟩]

theorem everyKind_replay :
    everyKind.Reachable ∧ everyKind.isSubgraph everyKind.name = false ∧
      everyKind.IsSafelyNamed ∧ Settings.emitOrphans {} = true ∧
      everyKind.toDocument {} = .ok everyKindDocument ∧
      ∃ g', everyKindDocument.replay = .ok g' ∧ ∃ doc', g'.toDocument {} = .ok doc' ∧
        doc'.withSafeScopes = everyKindDocument.withSafeScopes := by
  have hreachable : everyKind.Reachable := ⟨_, rfl⟩
  have hname : everyKind.isSubgraph everyKind.name = false := by decide
  have hsafe : everyKind.IsSafelyNamed := by decide +kernel
  have h : everyKind.toDocument {} = .ok everyKindDocument := by decide +kernel
  have hbuilt : ∀ e ∈ everyKind.edges.toList, e.IsBuilt := by decide +kernel
  obtain ⟨g', hread, doc', hdoc', -, hiff⟩ :=
    exists_replay_of_toDocument hreachable hname hsafe rfl h
  exact ⟨hreachable, hname, hsafe, rfl, h, g', hread, doc', hdoc', hiff.mpr hbuilt⟩

/-- An edge from a port with an empty text, which only a source of edges can bring. -/
def emptyPort : Graph :=
  empty.performAll [.setName "G", .addEdgesFrom (.list [⟨"a", some "", "b", none, true, ∅⟩])]

/-- The second document lacks the port of the first. -/
theorem emptyPort_not_fixedPoint :
    emptyPort.Reachable ∧ emptyPort.isSubgraph emptyPort.name = false ∧
      emptyPort.IsSafelyNamed ∧ Settings.emitOrphans {} = true ∧
      ∃ doc, emptyPort.toDocument {} = .ok doc ∧ ∃ g', doc.replay = .ok g' ∧
        ∃ doc', g'.toDocument {} = .ok doc' ∧ doc'.withSafeScopes ≠ doc.withSafeScopes := by
  have hreachable : emptyPort.Reachable := ⟨_, rfl⟩
  have hsafe : emptyPort.IsSafelyNamed := by decide +kernel
  exact ⟨hreachable, by decide, hsafe, rfl, _, rfl, _, rfl, _, rfl, by decide +kernel⟩

end Graph

end DotModel
