import DotModel.Proofs.Document.SafeName
import DotModel.Proofs.Writing.Placement

/-!
# Nothing lost, nothing twice

A document with orphans shows each live member in each shown scope that has it, in no scope twice,
and each loose member once at the top level.  Node statements have the stored attributes, and so
has the first block of each shown subgraph, which also has the live members in their order.  All
later blocks of it are empty.

Identifiers may coincide where names differ.  So the places of the members are given by name, and
the pairs of identifiers in the document are what these become by writing the names safely.
-/

namespace DotModel

namespace Stmt

mutual

/-- The pairs of a scope and a node or subgraph directly in it, from a statement in `scope`
inwards, as the document names them. -/
def nestings (scope : String) : Stmt → List (String × String)
  | .node stmt => [(scope, stmt.node.id.text)]
  | .subgraph id _ body => (scope, id.text) :: nestingsAll id.text body
  | .attr _ | .edge _ => []

/-- The pairs of all statements of a body in `scope`. -/
def nestingsAll (scope : String) : List Stmt → List (String × String)
  | [] => []
  | s :: rest => nestings scope s ++ nestingsAll scope rest

end

theorem nestingsAll_append (scope : String) (stmts rest : List Stmt) :
    nestingsAll scope (stmts ++ rest) = nestingsAll scope stmts ++ nestingsAll scope rest := by
  induction stmts with
  | nil => rfl
  | cons s stmts ih => simp only [List.cons_append, nestingsAll, ih, List.append_assoc]

theorem nestingsAll_eq_nil {scope : String} {stmts : List Stmt}
    (h : ∀ s ∈ stmts, nestings scope s = []) : nestingsAll scope stmts = [] := by
  induction stmts with
  | nil => rfl
  | cons s rest ih =>
      rw [List.forall_mem_cons] at h
      rw [nestingsAll, h.1, ih h.2]
      rfl

end Stmt

/-- The pairs of a scope and a node or subgraph directly in it, top-level ones under the name of
the graph. -/
def Document.nestings (doc : Document) : List (String × String) :=
  Stmt.nestingsAll doc.header.toGraph.name doc.stmts

/-- Both names as they are written. -/
def safePair (e : String × String) : String × String := (safeName e.1, safeName e.2)

namespace Graph

variable {g : Graph} {s : Settings} {room limit : Nat}
  {path names expanded expanded' lost : List String} {places : List Place} {scope : String}

theorem Coherent.toStmt_node (hg : g.Coherent) {name : String} {m : Member}
    (hm : g.node? name = some m) :
    Place.toStmt g (.node name) = .node ⟨⟨.ofName name, none⟩, attrList m.attrs⟩ := by
  rw [Place.toStmt, hm, Option.getD_some, nodeStmt, hg.name_of_node? hm]

theorem toStmt_body {name : String} {m : Member} (hm : g.subgraph? name = some m)
    (inside : List Place) :
    Place.toStmt g (.body name inside) =
      .subgraph (.ofName name) (attrStmts name m.attrs) (Place.toStmts g inside) := by
  rw [Place.toStmt, hm]
  rfl

theorem exists_subgraph?_of_isShown {name : String} (h : g.IsShown name) :
    ∃ m, g.subgraph? name = some m :=
  OrdMap.exists_find?_of_mem (isSubgraph_eq_true_iff.mp h.1)

/-- The statements of a walk are nested as its places are. -/
theorem Walk.nestings_toStmts (hg : g.Coherent)
    (w : Walk g room path names expanded places expanded') (scope : String) :
    Stmt.nestingsAll (safeName scope) (Place.toStmts g places) =
      (Place.nestingsAll scope places).map safePair := by
  induction w generalizing scope with
  | nil => rfl
  | node hnode _ ih =>
      obtain ⟨m, hm⟩ := exists_node?_of_isNode hnode
      rw [Place.toStmts_cons, hg.toStmt_node hm, Stmt.nestingsAll, ih, Place.nestingsAll_cons,
        List.map_append]
      rfl
  | skip _ _ ih => exact ih scope
  | mention _ _ _ _ ih =>
      rw [Place.toStmts_cons, Stmt.nestingsAll, ih, Place.nestingsAll_cons, List.map_append]
      rfl
  | @body _ _ name _ _ _ _ _ _ hshown _ _ _ _ ihinner ihrest =>
      obtain ⟨m, hm⟩ := exists_subgraph?_of_isShown hshown
      have hinner := ihinner name
      rw [Place.toStmts_cons, toStmt_body hm, Stmt.nestingsAll, ihrest, Place.nestingsAll_cons,
        List.map_append, Stmt.nestings, Ident.ofName_eq, hinner]
      rfl

theorem Course.nestings_document (hg : g.Coherent) (c : Course g limit lost places expanded)
    (edges : List EdgeStmt) :
    Document.nestings ⟨g.header,
        (attrStmts g.name g.attrs).map .attr ++ Place.toStmts g places ++ edges.map .edge⟩ =
      (Place.nestingsAll g.name places).map safePair := by
  have hattrs : Stmt.nestingsAll (safeName g.name)
      ((attrStmts g.name g.attrs).map .attr) = [] := by
    apply Stmt.nestingsAll_eq_nil
    intro stmt hstmt
    obtain ⟨a, -, rfl⟩ := List.mem_map.mp hstmt
    rfl
  have hedges : Stmt.nestingsAll (safeName g.name) (edges.map .edge) = [] := by
    apply Stmt.nestingsAll_eq_nil
    intro stmt hstmt
    obtain ⟨e, -, rfl⟩ := List.mem_map.mp hstmt
    rfl
  rw [Document.nestings, name_toGraph_header, Stmt.nestingsAll_append, Stmt.nestingsAll_append,
    hattrs, hedges, c.walk.nestings_toStmts hg, List.append_nil, List.nil_append]

/-- The places of a document that shows the graph exactly. -/
structure IsExactLayout (g : Graph) (layout : List Place) : Prop where
  /-- No member stands twice in one scope. -/
  nodup : (Place.nestingsAll g.name layout).Nodup
  /-- Each live member stands in the shown scopes that have it, or at the top level if none has. -/
  mem_iff : ∀ p c, (p, c) ∈ Place.nestingsAll g.name layout ↔
    g.IsLive c ∧
      ((p = g.name ∨ g.IsShown p) ∧ g.relations.contains p c = true ∨
        p = g.name ∧ ∀ q, q = g.name ∨ g.IsShown q → g.relations.contains q c = false)
  /-- Where a node stands its attributes are written, in order. -/
  nodes : ∀ n, .node n ∈ Place.flattenAll layout → ∃ node, g.node? n = some node ∧
    Place.toStmt g (.node n) = .node ⟨⟨.ofName n, none⟩, attrList node.attrs⟩
  /-- The first block of a shown subgraph has its attributes and its live members, both in order,
  and the later ones have nothing. -/
  blocks : ∀ u, g.IsShown u → ∃ sub inside later, g.subgraph? u = some sub ∧
    (Place.flattenAll layout).filter (Place.isBlockOf u) = .body u inside :: later ∧
    inside.map Place.name = (g.children u).filter (fun c => g.IsLive c) ∧
    Place.toStmt g (.body u inside) =
      .subgraph (.ofName u) (attrStmts u sub.attrs) (Place.toStmts g inside) ∧
    ∀ b ∈ later, b = .mention u ∧ Place.toStmt g b = .subgraph (.ofName u) [] []

theorem Course.isExactLayout (hg : g.Coherent) (c : Course g limit lost places expanded) :
    g.IsExactLayout places where
  nodup := c.nodup_nestings
  mem_iff := by
    intro p n
    have hcontains : ∀ q, g.relations.contains q n = true ↔ n ∈ g.children q := fun _ =>
      Relations.contains_eq_true_iff
    simp only [c.mem_nestings_iff, IsLoose, IsShownScope, ← Bool.not_eq_true, hcontains]
  nodes := by
    intro n hn
    obtain ⟨m, hm⟩ := exists_node?_of_isNode (c.walk.isNode_of_mem_flatten hn)
    exact ⟨m, hm, hg.toStmt_node hm⟩
  blocks := by
    intro u hu
    obtain ⟨sub, hsub⟩ := exists_subgraph?_of_isShown hu
    obtain ⟨inside, later, hblocks, hmembers, hlater⟩ :=
      c.walk.exists_blocks_eq_cons List.not_mem_nil (c.complete u hu)
    refine ⟨sub, inside, later, hsub, hblocks, hmembers, toStmt_body hsub inside, ?_⟩
    intro b hb
    rw [hlater b hb]
    exact ⟨rfl, rfl⟩

theorem Course.nodup_safe_nestings (c : Course g limit lost places expanded)
    (hinj : Set.InjOn safeName {n | n = g.name ∨ g.IsLive n}) :
    ((Place.nestingsAll g.name places).map safePair).Nodup := by
  have hnames : ∀ e ∈ Place.nestingsAll g.name places,
      (e.1 = g.name ∨ g.IsLive e.1) ∧ (e.2 = g.name ∨ g.IsLive e.2) := by
    intro e he
    obtain ⟨hlive, hscope⟩ := c.mem_nestings_iff.mp he
    refine ⟨?_, Or.inr hlive⟩
    rcases hscope with ⟨hroot | hshown, -⟩ | ⟨hroot, -⟩
    · exact Or.inl hroot
    · exact Or.inr hshown.isLive
    · exact Or.inl hroot
  refine c.nodup_nestings.map_on ?_
  intro e he d hd heq
  obtain ⟨hp, hc⟩ := Prod.mk.inj heq
  exact Prod.ext (hinj (hnames e he).1 (hnames d hd).1 hp) (hinj (hnames e he).2 (hnames d hd).2 hc)

/-- A document with orphans shows the graph exactly: its statements are those of an exact layout
between the graph's attributes and the edges, and its nestings those of the layout.  They are
distinct as the document names them if no two names are written alike. -/
theorem exists_layout_of_toDocument (hg : g.Reachable) (hname : g.isSubgraph g.name = false)
    (hs : s.emitOrphans = true) {doc : Document} (h : g.toDocument s = .ok doc) :
    ∃ (layout : List Place) (edges : List EdgeStmt),
      doc.stmts =
        (attrStmts g.name g.attrs).map .attr ++ Place.toStmts g layout ++ edges.map .edge ∧
      doc.nestings = (Place.nestingsAll g.name layout).map safePair ∧
      g.IsExactLayout layout ∧
      (Set.InjOn safeName {n | n = g.name ∨ g.IsLive n} → doc.nestings.Nodup) := by
  have hcoherent : g.Coherent := hg.coherent
  obtain ⟨lost, places, expanded, edges, c, -, rfl⟩ :=
    exists_course_of_toDocument hcoherent hname hs h
  refine ⟨places, edges, rfl, c.nestings_document hcoherent edges, c.isExactLayout hcoherent, ?_⟩
  intro hinj
  rw [c.nestings_document hcoherent]
  exact c.nodup_safe_nestings hinj

/-- A node inside a subgraph that two others share, a node whose scope does not exist, and
attributes everywhere. -/
def sharedAndLost : Graph :=
  empty.performAll [.setName "G", .addAttr "G" "rankdir" "LR",
    .addSubgraph "G" "left" (OrdMap.ofList [("color", "red"), ("label", "")]),
    .addSubgraph "G" "right" ∅, .addSubgraph "left" "shared" ∅,
    .addSubgraph "right" "shared" (OrdMap.ofList [("label", "both")]),
    .addNode "shared" "n" (OrdMap.ofList [("shape", "box"), ("color", "blue")]),
    .addNode "gone" "lost" (OrdMap.ofList [("label", "?")]),
    .addEdge (.between "n" "lost" true (OrdMap.ofList [("style", "bold")]))]

/-- Its document: `shared` has its attributes and its node in its first block only. -/
def sharedAndLostDocument : Document where
  header := ⟨some (.ofName "G"), false, false⟩
  stmts :=
    [.attr ⟨"G", .verbatim "rankdir", .verbatim "LR"⟩,
      .subgraph (.ofName "left")
        [⟨"left", .verbatim "color", .verbatim "red"⟩, ⟨"left", .verbatim "label", .verbatim ""⟩]
        [.subgraph (.ofName "shared") [⟨"shared", .verbatim "label", .verbatim "both"⟩]
          [.node ⟨⟨.ofName "n", none⟩,
            [⟨.verbatim "shape", .verbatim "box"⟩, ⟨.verbatim "color", .verbatim "blue"⟩]⟩]],
      .subgraph (.ofName "right") [] [.subgraph (.ofName "shared") [] []],
      .node ⟨⟨.ofName "lost", none⟩, [⟨.verbatim "label", .verbatim "?"⟩]⟩,
      .edge ⟨.node ⟨.ofName "n", none⟩, .node ⟨.ofName "lost", none⟩, true,
        [⟨.verbatim "style", .verbatim "bold"⟩]⟩]

theorem sharedAndLost_layout :
    sharedAndLost.Reachable ∧ sharedAndLost.isSubgraph sharedAndLost.name = false ∧
      Settings.emitOrphans {} = true ∧
      sharedAndLost.toDocument {} = .ok sharedAndLostDocument ∧
      ∃ (layout : List Place) (edges : List EdgeStmt), sharedAndLostDocument.stmts =
          (attrStmts sharedAndLost.name sharedAndLost.attrs).map .attr ++
            Place.toStmts sharedAndLost layout ++ edges.map .edge ∧
        sharedAndLostDocument.nestings =
          (Place.nestingsAll sharedAndLost.name layout).map safePair ∧
        sharedAndLost.IsExactLayout layout := by
  have hreachable : sharedAndLost.Reachable := ⟨_, rfl⟩
  have hname : sharedAndLost.isSubgraph sharedAndLost.name = false := by decide
  have h : sharedAndLost.toDocument {} = .ok sharedAndLostDocument := by decide +kernel
  obtain ⟨layout, edges, hstmts, hnestings, hexact, -⟩ :=
    exists_layout_of_toDocument hreachable hname rfl h
  exact ⟨hreachable, hname, rfl, h, layout, edges, hstmts, hnestings, hexact⟩

end Graph

end DotModel
