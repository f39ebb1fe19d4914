import DotModel.Document.Text
import DotModel.Graph.Basic
import DotModel.Settings.Basic

/-!
# Writing a graph as a document

The graph's own scope is expanded first: its attributes, then its members in order, a subgraph with
everything below it before the next member.  A subgraph that several scopes hold is expanded where
it is met first and stands as an empty block afterwards; one that is met inside itself is an error.

Members that this does not reach, the *orphans*, follow at the top level if the settings ask for
them: subgraphs first, each after the subgraphs that hold it, then nodes.  The edges come last.

Each step takes the progress of the writing before it and returns the progress after it.
-/

namespace DotModel.Graph

/-! ## Statements of single members -/

/-- The attributes of a scope as statements. -/
def attrStmts (scope : String) (attrs : Attributes) : List AttrStmt :=
  attrs.toList.map fun e => ⟨scope, .verbatim e.1, .verbatim e.2⟩

/-- Attributes as they stand behind a node or an edge. -/
def attrList (attrs : Attributes) : List Attr :=
  attrs.toList.map fun e => ⟨.verbatim e.1, .verbatim e.2⟩

/-- The declaration of a node. -/
def nodeStmt (node : Member) : Stmt :=
  .node ⟨⟨.ofName node.name, none⟩, attrList node.attrs⟩

/-! ## Scopes -/

/-- What a writing has dealt with so far, the latest first. -/
structure Progress where
  /-- The subgraphs whose members are written or being written. -/
  expanded : List String := []
  /-- The nodes that are declared in some scope. -/
  written : List String := []
  deriving DecidableEq

namespace Progress

/-- The progress when a subgraph is expanded. -/
def expand (p : Progress) (name : String) : Progress := { p with expanded := name :: p.expanded }

/-- The progress when a node is written. -/
def write (p : Progress) (name : String) : Progress := { p with written := name :: p.written }

end Progress

/-- The statements of a list of members, with `expand` for the subgraphs among them.  A node hides
a subgraph of its name, and a name that is neither is passed over. -/
def memberStmts (g : Graph) (expand : String → Progress → Except Error (Stmt × Progress)) :
    List String → Progress → Except Error (List Stmt × Progress)
  | [], before => .ok ([], before)
  | name :: rest, before =>
    match g.node? name with
    | some node => do
      let (stmts, after) ← memberStmts g expand rest (before.write node.name)
      .ok (nodeStmt node :: stmts, after)
    | none =>
      if g.isSubgraph name then do
        let (block, between) ← expand name before
        let (stmts, after) ← memberStmts g expand rest between
        .ok (block :: stmts, after)
      else
        memberStmts g expand rest before

/-- The block of a subgraph.  `path` holds the scopes around it, `room` tells how many more levels
may be opened, and `limit` is the number of levels that the settings allow. -/
def block (g : Graph) (limit : Nat) (room : Nat) (path : List String) (name : String)
    (before : Progress) : Except Error (Stmt × Progress) :=
  if name ∈ path then
    .error (.relationCycle name)
  else if name ∈ before.expanded then
    .ok (.subgraph (.ofName name) [] [], before)
  else
    match room with
    | 0 => .error (.nestingTooDeep name limit)
    | room + 1 => do
      let (body, after) ←
        memberStmts g (block g limit room (name :: path)) (g.children name) (before.expand name)
      let attrs := ((g.subgraph? name).map fun sub => attrStmts name sub.attrs).getD []
      .ok (.subgraph (.ofName name) attrs body, after)

/-- The members of the graph's own scope. -/
def rootStmts (g : Graph) (limit : Nat) : Except Error (List Stmt × Progress) :=
  memberStmts g (block g limit limit [g.name]) (g.children g.name) {}

/-! ## Orphans -/

/-- Whether the name is that of a subgraph, hidden by no node, that is not expanded yet. -/
def isPending (g : Graph) (expanded : List String) (name : String) : Bool :=
  !expanded.contains name && g.isSubgraph name && !g.isNode name

/-- Whether another scope of this subgraph is a pending subgraph. -/
def waits (g : Graph) (expanded : List String) (name : String) : Bool :=
  (g.relations.parents name).any fun parent => parent != name && g.isPending expanded parent

/-- The top-level blocks of the pending subgraphs among `names`, without those that are held back
when their turn comes. -/
def pendingBlocks (g : Graph) (limit : Nat) (heldBack : List String → String → Bool) :
    List String → Progress → Except Error (List Stmt × Progress)
  | [], before => .ok ([], before)
  | name :: rest, before =>
    if g.isPending before.expanded name && !heldBack before.expanded name then do
      let (top, between) ← block g limit limit [] name before
      let (stmts, after) ← pendingBlocks g limit heldBack rest between
      .ok (top :: stmts, after)
    else
      pendingBlocks g limit heldBack rest before

/-- The top-level blocks of the subgraphs that are still pending.  In a first round a subgraph
waits for the pending subgraphs that hold it, so that each is written inside of them; what is left
then holds itself and is met by a second round. -/
def orphanBlocks (g : Graph) (limit : Nat) (before : Progress) :
    Except Error (List Stmt × Progress) := do
  let names := g.subgraphs.values.map Member.name
  let (first, between) ← g.pendingBlocks limit g.waits names before
  let (second, after) ← g.pendingBlocks limit (fun _ _ => false) names between
  .ok (first ++ second, after)

/-- The declarations of the nodes that are not written yet. -/
def orphanNodes (g : Graph) (written : List String) : List Stmt :=
  (g.nodes.values.filter fun node => !written.contains node.name).map nodeStmt

/-! ## Edges -/

/-- One end of an edge.  A subgraph that no node hides is meant as a whole and has no ports. -/
def endpoint (g : Graph) (name : String) (port : Option String) : Except Error Endpoint :=
  if !g.isNode name && g.isSubgraph name then
    match port with
    | some port => .error (.portOnSubgraph name port)
    | none => .ok (.subgraph (.ofName name))
  else
    .ok (.node ⟨.ofName name, port⟩)

/-- The statement of an edge; its source is looked at first. -/
def edgeStmt (g : Graph) (e : Edge) : Except Error EdgeStmt := do
  let src ← g.endpoint e.src e.srcPort
  let dst ← g.endpoint e.dst e.dstPort
  .ok ⟨src, dst, e.directed, attrList e.attrs⟩

/-- The statements of all edges, in order. -/
def edgeStmts (g : Graph) : Except Error (List EdgeStmt) := g.edges.toList.mapM g.edgeStmt

/-! ## Documents -/

/-- What stands before the edges: the statements of the graph's own scope, and the orphans. -/
structure Outline where
  attrs : List AttrStmt
  members : List Stmt
  orphanBlocks : List Stmt
  orphanNodes : List Stmt

/-- The statements in their order. -/
def Outline.stmts (o : Outline) : List Stmt :=
  o.attrs.map .attr ++ o.members ++ o.orphanBlocks ++ o.orphanNodes

/-- The part of the document that does not depend on the edges. -/
def outline (g : Graph) (s : Settings) : Except Error Outline := do
  let attrs := attrStmts g.name g.attrs
  let (members, between) ← g.rootStmts s.maxDepth
  if s.emitOrphans then
    let (blocks, after) ← g.orphanBlocks s.maxDepth between
    .ok ⟨attrs, members, blocks, g.orphanNodes after.written⟩
  else
    .ok ⟨attrs, members, [], []⟩

/-- The header; a graph with the empty name is anonymous. -/
def header (g : Graph) : Header where
  id := if g.name = "" then none else some (.ofName g.name)
  directed := g.directed
  strict := g.strict

/-- The graph as a document. -/
def toDocument (g : Graph) (s : Settings) : Except Error Document := do
  let outline ← g.outline s
  let edges ← g.edgeStmts
  .ok ⟨g.header, outline.stmts ++ edges.map .edge⟩

/-- The graph as DOT text. -/
def toText (g : Graph) (s : Settings) : Except Error String := do
  .ok ((← g.toDocument s).toText s.indent)

end DotModel.Graph
