import DotModel.Proofs.Writing.Shape

/-!
# Edges come last

The statements before the edges are those of the graph without its edges, and a graph that cannot be
written without them is refused for the same reason with them.  Then the edges are looked at one
after the other.  The first port on a shown subgraph is refused, that of a source before that of its
target; if there is none, each edge gives one statement.
-/

namespace DotModel.Graph

variable {g : Graph} {es : Edges} {s : Settings} {limit room : Nat}
  {path names : List String} {name : String} {before : Progress}

/-- The graph with these edges in place of its own. -/
def withEdges (g : Graph) (es : Edges) : Graph := { g with edges := es }

/-- The graph without its edges. -/
def withoutEdges (g : Graph) : Graph := g.withEdges ∅

/-! ## Before the edges -/

theorem memberStmts_withEdges {expand : String → Progress → Except Error (Stmt × Progress)} :
    memberStmts (g.withEdges es) expand names before = memberStmts g expand names before :=
  memberStmts_eq_of_collections rfl rfl

theorem block_withEdges :
    block (g.withEdges es) limit room path name before = block g limit room path name before := by
  induction room generalizing path name before with
  | zero => rw [block, block]
  | succ room ih =>
      have hinside : block (g.withEdges es) limit room (name :: path) =
          block g limit room (name :: path) := by
        funext child before
        exact ih
      by_cases hpath : name ∈ path
      · rw [block_of_mem_path hpath, block_of_mem_path hpath]
      by_cases hold : name ∈ before.expanded
      · rw [block_of_mem_expanded hpath hold, block_of_mem_expanded hpath hold]
      · rw [block_succ hpath hold, block_succ hpath hold, hinside, memberStmts_withEdges]
        rfl

theorem rootStmts_withEdges : (g.withEdges es).rootStmts limit = g.rootStmts limit := by
  rw [rootStmts, rootStmts, memberStmts_congr fun _ _ _ => block_withEdges,
    memberStmts_withEdges]
  rfl

theorem pendingBlocks_withEdges {heldBack : List String → String → Bool} :
    (g.withEdges es).pendingBlocks limit heldBack names before =
      g.pendingBlocks limit heldBack names before := by
  induction names generalizing before with
  | nil => rfl
  | cons name names ih =>
      rw [pendingBlocks, pendingBlocks]
      simp only [ih, block_withEdges]
      rfl

theorem orphanBlocks_withEdges :
    (g.withEdges es).orphanBlocks limit before = g.orphanBlocks limit before := by
  rw [orphanBlocks_eq, orphanBlocks_eq]
  simp only [pendingBlocks_withEdges]
  rfl

theorem outline_withEdges : (g.withEdges es).outline s = g.outline s := by
  rw [outline, outline]
  simp only [rootStmts_withEdges, orphanBlocks_withEdges]
  rfl

/-! ## Documents -/

theorem toDocument_eq_unlessPorts (g : Graph) (s : Settings) :
    g.toDocument s = g.outline s >>= fun o =>
      unlessPorts g.portsOnShown
        ⟨g.header, o.stmts ++ (g.edges.toList.map g.shownEdge).map .edge⟩ := by
  rw [toDocument_eq, edgeStmts_eq_unlessPorts]
  simp only [unlessPorts_map]

theorem toDocument_withoutEdges (g : Graph) (s : Settings) :
    g.withoutEdges.toDocument s = g.outline s >>= fun o => .ok ⟨g.header, o.stmts⟩ := by
  rw [toDocument_eq_unlessPorts, withoutEdges, outline_withEdges]
  congr 1
  funext o
  exact congrArg (fun stmts => Except.ok (Document.mk g.header stmts)) (List.append_nil o.stmts)

/-- How the document of a graph goes on from the one of the graph without its edges. -/
structure EndsInEdges (g : Graph) (s : Settings) (bare : Document) : Prop where
  /-- The first port on a shown subgraph is refused, -/
  refused : ∀ name port rest, g.portsOnShown = (name, port) :: rest →
    g.toDocument s = .error (.portOnSubgraph name port)
  /-- and if there is none, the edges stand at the end, in their order. -/
  written : g.portsOnShown = [] →
    g.toDocument s =
      .ok ⟨bare.header, bare.stmts ++ (g.edges.toList.map g.shownEdge).map .edge⟩
  /-- Before them stand the attributes of the graph and then its members, with members only in the
  blocks among them. -/
  scopes : ∃ members, bare.stmts = (attrStmts g.name g.attrs).map .attr ++ members ∧
    Stmt.AreMembers members

/-- The scopes are written as if there were no edges, and refused first.  Otherwise it is only the
edges that can be refused, and what they add stands at the end. -/
theorem edges_written_last (g : Graph) (s : Settings) :
    (∀ e, g.withoutEdges.toDocument s = .error e → g.toDocument s = .error e) ∧
      ∀ bare, g.withoutEdges.toDocument s = .ok bare → g.EndsInEdges s bare := by
  rw [toDocument_withoutEdges]
  constructor
  · intro e h
    rw [bind_eq_error_iff] at h
    rcases h with h | ⟨_, _, h⟩
    · rw [toDocument_eq, h, error_bind]
    · cases h
  · intro bare h
    obtain ⟨o, ho, h⟩ := bind_eq_ok_iff.mp h
    cases h
    obtain ⟨layout, lost, hstmts, -⟩ := exists_needsLevels_of_outline ho
    have hdoc := toDocument_eq_unlessPorts g s
    rw [ho, ok_bind] at hdoc
    refine ⟨?_, ?_, Place.toStmts g layout ++ lost.map nodeStmt, ?_, ?_⟩
    · intro name port rest hports
      rw [hdoc, hports]
      rfl
    · intro hnone
      rw [hdoc, hnone]
      rfl
    · rw [hstmts, List.append_assoc]
    · exact Stmt.areMembers_append (Place.areMembers_toStmts g layout)
        (areMembers_map_nodeStmt lost)

/-- Two edges, the second one from a node to a subgraph, perhaps with a port there. -/
def intoSubgraph (port : Option String) : Graph where
  name := "G"
  attrs := .ofList [("rankdir", "LR")]
  nodes := (Members.declare ∅ "a" (.ofList [("shape", "box"), ("label", "")])).declare "b" ∅
  subgraphs := (Members.register ∅ "s").setAttr "s" "color" "red"
  relations := ((∅ : Relations).add "G" "s").add "s" "a"
  edges := .addMany ∅
    [⟨"a", some "p", "b", none, true, .ofList [("style", "bold"), ("weight", "2")]⟩,
      ⟨"b", some "s", "s", port, false, .ofList [("label", "to s")]⟩]

theorem intoSubgraph_toDocument :
    (intoSubgraph (some "q")).toDocument {} = .error (.portOnSubgraph "s" "q") ∧
      (intoSubgraph none).toDocument {} =
        .ok ⟨⟨some (.ofName "G"), false, false⟩,
          [.attr ⟨"G", .verbatim "rankdir", .verbatim "LR"⟩,
            .subgraph (.ofName "s") [⟨"s", .verbatim "color", .verbatim "red"⟩]
              [.node ⟨⟨.ofName "a", none⟩,
                [⟨.verbatim "shape", .verbatim "box"⟩, ⟨.verbatim "label", .verbatim ""⟩]⟩],
            .node ⟨⟨.ofName "b", none⟩, []⟩,
            .edge ⟨.node ⟨.ofName "a", some "p"⟩, .node ⟨.ofName "b", none⟩, true,
              [⟨.verbatim "style", .verbatim "bold"⟩, ⟨.verbatim "weight", .verbatim "2"⟩]⟩,
            .edge ⟨.node ⟨.ofName "b", some "s"⟩, .subgraph (.ofName "s"), false,
              [⟨.verbatim "label", .verbatim "to s"⟩]⟩]⟩ := by
  constructor
  · exact ((edges_written_last (intoSubgraph (some "q")) {}).2 _ rfl).refused "s" "q" [] rfl
  · exact ((edges_written_last (intoSubgraph none) {}).2 _ rfl).written rfl

end DotModel.Graph
