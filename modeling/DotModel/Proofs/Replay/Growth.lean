import DotModel.Proofs.Graph.Scope
import DotModel.Proofs.Writing.Exactness

/-!
# Growth by replay

What reading a document does to a graph.  The statements of a walk add declarations and members:
each node and each block declares what it names, with the attributes that stand there, and makes it
a member of the scope that it stands in.  No statement of a walk is refused, since a block
registers its subgraph before anything in it is read.
-/

namespace DotModel

/-! ## What is read back -/

@[simp] theorem Attributes.ofAttrs_attrList (attrs : Attributes) :
    Attributes.ofAttrs (Graph.attrList attrs) = attrs := by
  have hpairs : (Graph.attrList attrs).map (fun a => (a.key.text, a.value.text)) =
      attrs.toList := by
    rw [Graph.attrList, List.map_map]
    exact List.map_id attrs.toList
  rw [ofAttrs, hpairs, OrdMap.ofList_toList]

theorem Graph.map_attrStmts (scope : String) (attrs : Attributes) :
    (Graph.attrStmts scope attrs).map (fun a => (a.key.text, a.value.text)) = attrs.toList := by
  rw [Graph.attrStmts, List.map_map]
  exact List.map_id attrs.toList

@[simp] theorem Attributes.ofStmts_attrStmts (scope : String) (attrs : Attributes) :
    Attributes.ofStmts (Graph.attrStmts scope attrs) = attrs := by
  rw [ofStmts, Graph.map_attrStmts, OrdMap.ofList_toList]

namespace Graph

/-! ## Growth -/

/-- The graph with further nodes and subgraphs declared and further members in its scopes. -/
def grow (g : Graph) (nodes subgraphs : List (String × Attributes))
    (pairs : List (String × String)) : Graph :=
  { g with
    nodes := g.nodes.declareAll nodes
    subgraphs := g.subgraphs.declareAll subgraphs
    relations := g.relations.addAll pairs }

variable {g target : Graph} {nodes nodes' subgraphs subgraphs' : List (String × Attributes)}
  {pairs pairs' : List (String × String)} {scope parent name : String} {attrs : Attributes}

@[simp] theorem grow_nil (g : Graph) : g.grow [] [] [] = g := rfl

@[simp] theorem name_grow : (g.grow nodes subgraphs pairs).name = g.name := rfl

theorem grow_grow :
    (g.grow nodes subgraphs pairs).grow nodes' subgraphs' pairs' =
      g.grow (nodes ++ nodes') (subgraphs ++ subgraphs') (pairs ++ pairs') := by
  simp only [grow, Members.declareAll_append, Relations.addAll_append]

theorem isScope_grow :
    (g.grow nodes subgraphs pairs).isScope scope = true ↔
      g.isScope scope = true ∨ scope ∈ subgraphs.map Prod.fst := by
  rw [isScope_eq_true_iff, isScope_eq_true_iff, name_grow, grow, Members.mem_declareAll]
  tauto

theorem isScope_grow_of_isScope (h : g.isScope scope = true) :
    (g.grow nodes subgraphs pairs).isScope scope = true :=
  isScope_grow.mpr (Or.inl h)

theorem addNode_eq_grow (g : Graph) (parent name : String) (attrs : Attributes) :
    g.addNode parent name attrs = g.grow [(name, attrs)] [] [(parent, name)] := rfl

/-- A subgraph in a scope that exists is never refused. -/
theorem addSubgraph_eq_grow (hparent : g.isScope parent = true) (hname : g.name ≠ name) :
    g.addSubgraph parent name attrs = .ok (g.grow [] [(name, attrs)] [(parent, name)]) :=
  addSubgraph_of_ne_name hparent hname attrs

end Graph

/-! ## Statements -/

theorem Member.getD_attrs {found : Option Member} {m : Member} (h : found = some m) :
    (found.map Member.attrs).getD ∅ = m.attrs := by
  rw [h]
  rfl

namespace Place

/-- What the statement of a node declares when it is read. -/
def nodeDecl (g : Graph) : Place → Option (String × Attributes)
  | .node name => some (safeName name, ((g.node? name).map Member.attrs).getD ∅)
  | .body .. | .mention _ => none

/-- What a block declares when it is read. -/
def blockDecl (g : Graph) : Place → Option (String × Attributes)
  | .node _ => none
  | .body name _ => some (safeName name, ((g.subgraph? name).map Member.attrs).getD ∅)
  | .mention name => some (safeName name, ∅)

/-- The declarations of nodes in and below some places, in the order of the document. -/
def nodeDecls (g : Graph) (places : List Place) : List (String × Attributes) :=
  (flattenAll places).filterMap (nodeDecl g)

/-- The declarations of subgraphs in and below some places, in the order of the document. -/
def blockDecls (g : Graph) (places : List Place) : List (String × Attributes) :=
  (flattenAll places).filterMap (blockDecl g)

theorem nodeDecls_body (g : Graph) (name : String) (inside rest : List Place) :
    nodeDecls g (.body name inside :: rest) = nodeDecls g inside ++ nodeDecls g rest :=
  List.filterMap_append

theorem blockDecls_body (g : Graph) (name : String) (inside rest : List Place) :
    blockDecls g (.body name inside :: rest) =
      (safeName name, ((g.subgraph? name).map Member.attrs).getD ∅) ::
        (blockDecls g inside ++ blockDecls g rest) :=
  congrArg (List.cons _) List.filterMap_append

end Place

namespace Stmt

theorem replayBody_append (scope : String) (g : Graph) (stmts rest : List Stmt) :
    replayBody scope g (stmts ++ rest) =
      replayBody scope g stmts >>= fun g' => replayBody scope g' rest := by
  induction stmts generalizing g with
  | nil => rfl
  | cons s stmts ih =>
      rw [List.cons_append, replayBody, replayBody]
      cases replay scope g s with
      | error e => rfl
      | ok g' => exact ih g'

end Stmt

namespace Graph

variable {g target : Graph} {room : Nat} {path names expanded expanded' : List String}
  {places : List Place} {scope : String}

theorem replay_toStmt_node (hg : g.Coherent) {name : String} {m : Member}
    (hm : g.node? name = some m) (scope : String) (target : Graph) :
    Stmt.replay scope target (Place.toStmt g (.node name)) =
      .ok (target.grow [(safeName name, m.attrs)] [] [(scope, safeName name)]) := by
  rw [hg.toStmt_node hm, Stmt.replay, Attributes.ofAttrs_attrList, addNode_eq_grow]
  rfl

theorem replay_toStmt_mention {name : String} (hscope : target.isScope scope = true)
    (hname : target.name ≠ safeName name) :
    Stmt.replay scope target (Place.toStmt g (.mention name)) =
      .ok (target.grow [] [(safeName name, ∅)] [(scope, safeName name)]) := by
  rw [Place.toStmt, Stmt.replay, Ident.ofName_eq, addSubgraph_eq_grow hscope hname]
  rfl

theorem replay_toStmt_body {name : String} {m : Member} {inside : List Place}
    (hm : g.subgraph? name = some m) (hscope : target.isScope scope = true)
    (hname : target.name ≠ safeName name) :
    Stmt.replay scope target (Place.toStmt g (.body name inside)) =
      Stmt.replayBody (safeName name)
        (target.grow [] [(safeName name, m.attrs)] [(scope, safeName name)])
        (Place.toStmts g inside) := by
  rw [toStmt_body hm, Stmt.replay, Ident.ofName_eq, Attributes.ofStmts_attrStmts,
    addSubgraph_eq_grow hscope hname, ok_bind]

/-- Reading the statements of a walk adds what stands in its places. -/
theorem Walk.replayBody_toStmts (hg : g.Coherent)
    (w : Walk g room path names expanded places expanded')
    (hscope : target.isScope (safeName scope) = true)
    (hname : ∀ u, g.IsShown u → target.name ≠ safeName u) :
    Stmt.replayBody (safeName scope) target (Place.toStmts g places) =
      .ok (target.grow (Place.nodeDecls g places) (Place.blockDecls g places)
        ((Place.nestingsAll scope places).map safePair)) := by
  induction w generalizing target scope with
  | nil => rfl
  | @node _ _ name _ _ _ _ hnode _ ih =>
      obtain ⟨m, hm⟩ := exists_node?_of_isNode hnode
      rw [Place.toStmts_cons, Stmt.replayBody, replay_toStmt_node hg hm, ok_bind,
        ih (isScope_grow_of_isScope hscope) hname, grow_grow, ← Member.getD_attrs hm]
      rfl
  | skip _ _ ih => exact ih hscope hname
  | @mention _ _ name _ _ _ _ hshown _ _ _ ih =>
      rw [Place.toStmts_cons, Stmt.replayBody, replay_toStmt_mention hscope (hname name hshown),
        ok_bind, ih (isScope_grow_of_isScope hscope) hname, grow_grow]
      rfl
  | @body _ _ name _ _ inside _ _ _ hshown _ _ _ _ ihinner ihrest =>
      obtain ⟨m, hm⟩ := exists_subgraph?_of_isShown hshown
      have hopened : (target.grow [] [(safeName name, m.attrs)]
          [(safeName scope, safeName name)]).isScope (safeName name) = true :=
        isScope_grow.mpr (Or.inr List.mem_cons_self)
      rw [Place.toStmts_cons, Stmt.replayBody, replay_toStmt_body hm hscope (hname name hshown),
        ihinner hopened hname, grow_grow, ok_bind, ihrest (isScope_grow_of_isScope hscope) hname,
        grow_grow, Place.nodeDecls_body, Place.blockDecls_body, Member.getD_attrs hm,
        Place.nestingsAll_cons, List.map_append]
      rfl

/-! ## Attributes and edges -/

theorem replayBody_attrs (g : Graph) (stmts : List AttrStmt) :
    Stmt.replayBody g.name g (stmts.map .attr) =
      .ok { g with
        attrs := g.attrs.insertMany (stmts.map fun a => (a.key.text, a.value.text)) } := by
  induction stmts generalizing g with
  | nil => rfl
  | cons a rest ih =>
      have hstep : Stmt.replay g.name g (.attr a) =
          .ok { g with attrs := g.attrs.set a.key.text a.value.text } := by
        rw [Stmt.replay, addAttr_of_name rfl]
      rw [List.map_cons, Stmt.replayBody, hstep, ok_bind]
      exact ih { g with attrs := g.attrs.set a.key.text a.value.text }

theorem replayBody_edges (scope : String) (g : Graph) (stmts : List EdgeStmt) :
    Stmt.replayBody scope g (stmts.map .edge) = .ok (g.addEdges (stmts.map EdgeStmt.toEdge)) := by
  induction stmts generalizing g with
  | nil => rfl
  | cons e rest ih =>
      rw [List.map_cons, Stmt.replayBody, Stmt.replay, ok_bind, ih]
      rfl

/-- The graph with the header, the attributes and some edges of `g`, and with what stands in the
places. -/
def rebuilt (g : Graph) (places : List Place) (edges : List EdgeStmt) : Graph :=
  (grow { g.header.toGraph with attrs := g.attrs } (Place.nodeDecls g places)
    (Place.blockDecls g places) ((Place.nestingsAll g.name places).map safePair)).addEdges
      (edges.map EdgeStmt.toEdge)

/-- Reading a whole document rebuilds the graph from its places. -/
theorem Walk.replay_document (hg : g.Coherent)
    (w : Walk g room path names expanded places expanded')
    (hname : ∀ u, g.IsShown u → safeName g.name ≠ safeName u) (edges : List EdgeStmt) :
    Document.replay ⟨g.header,
        (attrStmts g.name g.attrs).map .attr ++ Place.toStmts g places ++ edges.map .edge⟩ =
      .ok (g.rebuilt places edges) := by
  have hattrs : Stmt.replayBody g.header.toGraph.name g.header.toGraph
      ((attrStmts g.name g.attrs).map .attr) =
        .ok { g.header.toGraph with attrs := g.attrs } := by
    rw [replayBody_attrs, map_attrStmts]
    exact congrArg (fun attrs => Except.ok { g.header.toGraph with attrs })
      (OrdMap.ofList_toList g.attrs)
  have hmembers : Stmt.replayBody g.header.toGraph.name { g.header.toGraph with attrs := g.attrs }
      (Place.toStmts g places) =
        .ok (grow { g.header.toGraph with attrs := g.attrs } (Place.nodeDecls g places)
          (Place.blockDecls g places) ((Place.nestingsAll g.name places).map safePair)) := by
    rw [name_toGraph_header]
    refine w.replayBody_toStmts hg ?_ ?_
    · exact isScope_eq_true_iff.mpr (Or.inl (name_toGraph_header g))
    · intro u hu
      exact name_toGraph_header g ▸ hname u hu
  rw [Document.replay]
  dsimp only
  rw [Stmt.replayBody_append, Stmt.replayBody_append, hattrs, ok_bind, hmembers, ok_bind,
    replayBody_edges]
  rfl

end Graph

end DotModel
