import DotModel.Proofs.Document.SafeName
import DotModel.Proofs.Nesting.Basic
import DotModel.Proofs.Outcome

/-!
# Steps of the writing

What writing does with the first member of a list, by the kind of the member, with a block, by
whether its subgraph is open or expanded already, with the first name of a round over the pending
subgraphs, by whether its turn has come, with the edges, by the ports on shown subgraphs, and with
the parts of a document, one after the other.
-/

namespace DotModel.Graph

variable {g : Graph} {limit room : Nat} {path names : List String} {name : String}
  {before after : Progress} {expand : String → Progress → Except Error (Stmt × Progress)}

theorem node?_or_isShown_or_not_isLive (g : Graph) (name : String) :
    (∃ m, g.node? name = some m) ∨ g.IsShown name ∨ ¬g.IsLive name := by
  by_cases hlive : g.IsLive name
  · rcases isLive_iff.mp hlive with hnode | hshown
    · exact Or.inl (exists_node?_of_isNode hnode)
    · exact Or.inr (Or.inl hshown)
  · exact Or.inr (Or.inr hlive)

theorem memberStmts_node {m : Member} (hm : g.node? name = some m) :
    memberStmts g expand (name :: names) before =
      memberStmts g expand names (before.write m.name) >>= fun r =>
        .ok (nodeStmt m :: r.1, r.2) := by
  rw [memberStmts, hm]

theorem memberStmts_shown (hshown : g.IsShown name) :
    memberStmts g expand (name :: names) before =
      expand name before >>= fun b =>
        memberStmts g expand names b.2 >>= fun r => .ok (b.1 :: r.1, r.2) := by
  rw [memberStmts, isNode_eq_false_iff.mp hshown.2]
  simp only [hshown.1, if_true]

theorem memberStmts_skip (hlive : ¬g.IsLive name) :
    memberStmts g expand (name :: names) before = memberStmts g expand names before := by
  rw [IsLive, not_or, Bool.not_eq_true] at hlive
  rw [memberStmts, isNode_eq_false_iff.mp hlive.1]
  simp only [hlive.2, Bool.false_eq_true, if_false]

/-- The statements of given members depend on the nodes and the subgraphs alone. -/
theorem memberStmts_eq_of_collections {g' : Graph} (hnodes : g'.nodes = g.nodes)
    (hsubgraphs : g'.subgraphs = g.subgraphs) :
    memberStmts g' expand names before = memberStmts g expand names before := by
  induction names generalizing before with
  | nil => rfl
  | cons name names ih =>
      rw [memberStmts, memberStmts, node?, node?, isSubgraph, isSubgraph, hnodes, hsubgraphs]
      simp only [ih]

/-- Only the blocks of shown subgraphs are asked for. -/
theorem memberStmts_congr {expand' : String → Progress → Except Error (Stmt × Progress)}
    (h : ∀ name before, g.IsShown name → expand name before = expand' name before) :
    memberStmts g expand names before = memberStmts g expand' names before := by
  induction names generalizing before with
  | nil => rfl
  | cons name names ih =>
      rcases g.node?_or_isShown_or_not_isLive name with ⟨m, hm⟩ | hshown | hlive
      · rw [memberStmts_node hm, memberStmts_node hm, ih]
      · rw [memberStmts_shown hshown, memberStmts_shown hshown, h name before hshown]
        simp only [ih]
      · rw [memberStmts_skip hlive, memberStmts_skip hlive, ih]

theorem block_of_mem_path (hpath : name ∈ path) :
    block g limit room path name before = .error (.relationCycle name) := by
  rw [block.eq_def, if_pos hpath]

theorem block_of_mem_expanded (hpath : name ∉ path) (hold : name ∈ before.expanded) :
    block g limit room path name before = .ok (.subgraph (.ofName name) [] [], before) := by
  rw [block.eq_def, if_neg hpath, if_pos hold]

theorem block_zero (hpath : name ∉ path) (hnew : name ∉ before.expanded) :
    block g limit 0 path name before = .error (.nestingTooDeep name limit) := by
  rw [block, if_neg hpath, if_neg hnew]

theorem block_succ (hpath : name ∉ path) (hnew : name ∉ before.expanded) :
    block g limit (room + 1) path name before =
      memberStmts g (block g limit room (name :: path)) (g.children name) (before.expand name) >>=
        fun r => .ok (.subgraph (.ofName name)
          (((g.subgraph? name).map fun sub => attrStmts name sub.attrs).getD []) r.1, r.2) := by
  rw [block, if_neg hpath, if_neg hnew]

/-- A block is refused inside of itself or where no more levels may be opened, or something in it
is refused. -/
theorem block_error_cases {e : Error} (h : block g limit room path name before = .error e) :
    name ∈ path ∧ e = .relationCycle name ∨
      name ∉ path ∧
        (room = 0 ∧ e = .nestingTooDeep name limit ∨
          ∃ lower, room = lower + 1 ∧
            memberStmts g (block g limit lower (name :: path)) (g.children name)
              (before.expand name) = .error e) := by
  by_cases hpath : name ∈ path
  · rw [block_of_mem_path hpath] at h
    cases h
    exact Or.inl ⟨hpath, rfl⟩
  · refine Or.inr ⟨hpath, ?_⟩
    by_cases hold : name ∈ before.expanded
    · rw [block_of_mem_expanded hpath hold] at h
      cases h
    · cases room with
      | zero =>
          rw [block_zero hpath hold] at h
          cases h
          exact Or.inl ⟨rfl, rfl⟩
      | succ lower =>
          rw [block_succ hpath hold, bind_eq_error_iff] at h
          rcases h with h | ⟨_, _, h⟩
          · exact Or.inr ⟨lower, rfl, h⟩
          · cases h

/-- A block that is written is empty if its subgraph was expanded before, and has the members of
the subgraph otherwise. -/
theorem block_ok_cases {stmt : Stmt}
    (h : block g limit room path name before = .ok (stmt, after)) :
    name ∉ path ∧
      (name ∈ before.expanded ∧ stmt = .subgraph (.ofName name) [] [] ∧ after = before ∨
        name ∉ before.expanded ∧ ∃ lower body, room = lower + 1 ∧
          memberStmts g (block g limit lower (name :: path)) (g.children name)
            (before.expand name) = .ok (body, after) ∧
          stmt = .subgraph (.ofName name)
            (((g.subgraph? name).map fun sub => attrStmts name sub.attrs).getD []) body) := by
  by_cases hpath : name ∈ path
  · rw [block_of_mem_path hpath] at h
    cases h
  · refine ⟨hpath, ?_⟩
    by_cases hold : name ∈ before.expanded
    · rw [block_of_mem_expanded hpath hold] at h
      cases h
      exact Or.inl ⟨hold, rfl, rfl⟩
    · cases room with
      | zero =>
          rw [block_zero hpath hold] at h
          cases h
      | succ lower =>
          rw [block_succ hpath hold, bind_eq_ok_iff] at h
          obtain ⟨⟨body, after⟩, hbody, h⟩ := h
          cases h
          exact Or.inr ⟨hold, lower, body, rfl, hbody, rfl⟩

/-! ## Rounds -/

theorem pendingBlocks_turn {heldBack : List String → String → Bool}
    (hturn : (g.isPending before.expanded name && !heldBack before.expanded name) = true) :
    g.pendingBlocks limit heldBack (name :: names) before =
      block g limit limit [] name before >>= fun b =>
        g.pendingBlocks limit heldBack names b.2 >>= fun r => .ok (b.1 :: r.1, r.2) := by
  rw [pendingBlocks, if_pos hturn]

theorem pendingBlocks_skip {heldBack : List String → String → Bool}
    (hturn : ¬(g.isPending before.expanded name && !heldBack before.expanded name) = true) :
    g.pendingBlocks limit heldBack (name :: names) before =
      g.pendingBlocks limit heldBack names before := by
  rw [pendingBlocks, if_neg hturn]

/-- A round that succeeds writes a block for the first name, or passes over it. -/
theorem pendingBlocks_ok_cases {heldBack : List String → String → Bool} {stmts : List Stmt}
    (h : g.pendingBlocks limit heldBack (name :: names) before = .ok (stmts, after)) :
    ((g.isPending before.expanded name && !heldBack before.expanded name) = true ∧
        ∃ top between rest, block g limit limit [] name before = .ok (top, between) ∧
        g.pendingBlocks limit heldBack names between = .ok (rest, after) ∧
        stmts = top :: rest) ∨
      ¬(g.isPending before.expanded name && !heldBack before.expanded name) = true ∧
        g.pendingBlocks limit heldBack names before = .ok (stmts, after) := by
  by_cases hturn : (g.isPending before.expanded name && !heldBack before.expanded name) = true
  · rw [pendingBlocks_turn hturn, bind_eq_ok_iff] at h
    obtain ⟨⟨top, between⟩, htop, h⟩ := h
    rw [bind_eq_ok_iff] at h
    obtain ⟨⟨rest, after⟩, hrest, h⟩ := h
    cases h
    exact Or.inl ⟨hturn, top, between, rest, htop, hrest, rfl⟩
  · rw [pendingBlocks_skip hturn] at h
    exact Or.inr ⟨hturn, h⟩

theorem orphanBlocks_eq :
    g.orphanBlocks limit before =
      g.pendingBlocks limit g.waits (g.subgraphs.values.map Member.name) before >>= fun r =>
        g.pendingBlocks limit (fun _ _ => false) (g.subgraphs.values.map Member.name) r.2 >>=
          fun t => .ok (r.1 ++ t.1, t.2) :=
  rfl

theorem orphanBlocks_ok_cases {stmts : List Stmt}
    (h : g.orphanBlocks limit before = .ok (stmts, after)) :
    ∃ first between second,
      g.pendingBlocks limit g.waits (g.subgraphs.values.map Member.name) before =
        .ok (first, between) ∧
      g.pendingBlocks limit (fun _ _ => false) (g.subgraphs.values.map Member.name) between =
        .ok (second, after) ∧
      stmts = first ++ second := by
  rw [orphanBlocks_eq, bind_eq_ok_iff] at h
  obtain ⟨⟨first, between⟩, hfirst, h⟩ := h
  rw [bind_eq_ok_iff] at h
  obtain ⟨⟨second, after⟩, hsecond, h⟩ := h
  cases h
  exact ⟨first, between, second, hfirst, hsecond, rfl⟩

/-! ## Edges -/

theorem endpoint_of_isShown (h : g.IsShown name) (port : Option String) :
    g.endpoint name port =
      match port with
      | some port => .error (.portOnSubgraph name port)
      | none => .ok (.subgraph (.ofName name)) := by
  unfold endpoint
  rw [h.1, h.2]
  rfl

theorem endpoint_of_not_isShown (h : ¬g.IsShown name) (port : Option String) :
    g.endpoint name port = .ok (.node ⟨.ofName name, port⟩) := by
  have hkind : (!g.isNode name && g.isSubgraph name) = false := by
    rw [IsShown, not_and] at h
    cases hsub : g.isSubgraph name with
    | false => simp
    | true => simpa using h hsub
  unfold endpoint
  rw [hkind]
  rfl

theorem name_and_port_of_endpoint {port : Option String} {e : Endpoint}
    (h : g.endpoint name port = .ok e) : e.name = safeName name ∧ e.port = port := by
  by_cases hshown : g.IsShown name
  · rw [endpoint_of_isShown hshown] at h
    cases port with
    | some port => cases h
    | none =>
        cases h
        exact ⟨rfl, rfl⟩
  · rw [endpoint_of_not_isShown hshown] at h
    cases h
    exact ⟨rfl, rfl⟩

theorem edgeStmt_ok_cases {e : Edge} {stmt : EdgeStmt} (h : g.edgeStmt e = .ok stmt) :
    ∃ src dst, g.endpoint e.src e.srcPort = .ok src ∧ g.endpoint e.dst e.dstPort = .ok dst ∧
      stmt = ⟨src, dst, e.directed, attrList e.attrs⟩ := by
  rw [edgeStmt, bind_eq_ok_iff] at h
  obtain ⟨src, hsrc, h⟩ := h
  rw [bind_eq_ok_iff] at h
  obtain ⟨dst, hdst, h⟩ := h
  cases h
  exact ⟨src, dst, hsrc, hdst, rfl⟩

/-- The port at an end of an edge, with the name there, if that is a shown subgraph. -/
def portOnShown (g : Graph) (name : String) (port : Option String) : List (String × String) :=
  if g.IsShown name then (port.map fun p => (name, p)).toList else []

/-- The ports that edges have on shown subgraphs, in the order of the edges and the source of each
edge first. -/
def portsOnShown (g : Graph) : List (String × String) :=
  g.edges.toList.flatMap fun e => g.portOnShown e.src e.srcPort ++ g.portOnShown e.dst e.dstPort

/-- An end of an edge as it stands in a document.  A shown subgraph stands for itself and every
other name for a node. -/
def shownEnd (g : Graph) (name : String) (port : Option String) : Endpoint :=
  if g.IsShown name then .subgraph (.ofName name) else .node ⟨.ofName name, port⟩

/-- An edge as it stands in a document. -/
def shownEdge (g : Graph) (e : Edge) : EdgeStmt :=
  ⟨g.shownEnd e.src e.srcPort, g.shownEnd e.dst e.dstPort, e.directed, attrList e.attrs⟩

/-- The result, unless there are ports on subgraphs, the first of which is refused. -/
def unlessPorts {α : Type} (ports : List (String × String)) (result : α) : Except Error α :=
  match ports with
  | [] => .ok result
  | (name, port) :: _ => .error (.portOnSubgraph name port)

theorem unlessPorts_bind {α β : Type} (ports more : List (String × String)) (a : α) (f : α → β) :
    (unlessPorts ports a >>= fun a => unlessPorts more (f a)) =
      unlessPorts (ports ++ more) (f a) := by
  cases ports with
  | nil => rfl
  | cons p rest => rfl

theorem unlessPorts_map {α β : Type} (ports : List (String × String)) (a : α) (f : α → β) :
    (unlessPorts ports a >>= fun a => .ok (f a)) = unlessPorts ports (f a) := by
  cases ports with
  | nil => rfl
  | cons p rest => rfl

theorem unlessPorts_eq_ok_iff {α : Type} {ports : List (String × String)} {a b : α} :
    unlessPorts ports a = .ok b ↔ ports = [] ∧ b = a := by
  cases ports with
  | nil => simp [unlessPorts, eq_comm]
  | cons p rest => simp [unlessPorts]

theorem exists_port_of_unlessPorts_error {α : Type} {ports : List (String × String)} {a : α}
    {e : Error} (h : unlessPorts ports a = .error e) :
    ∃ name port, e = .portOnSubgraph name port := by
  cases ports with
  | nil => cases h
  | cons p rest =>
      cases h
      exact ⟨p.1, p.2, rfl⟩

theorem endpoint_eq (g : Graph) (name : String) (port : Option String) :
    g.endpoint name port = unlessPorts (g.portOnShown name port) (g.shownEnd name port) := by
  by_cases hshown : g.IsShown name
  · rw [endpoint_of_isShown hshown, portOnShown, if_pos hshown, shownEnd, if_pos hshown]
    cases port with
    | none => rfl
    | some port => rfl
  · rw [endpoint_of_not_isShown hshown, portOnShown, if_neg hshown, shownEnd, if_neg hshown]
    rfl

theorem edgeStmt_eq (g : Graph) (e : Edge) :
    g.edgeStmt e =
      unlessPorts (g.portOnShown e.src e.srcPort ++ g.portOnShown e.dst e.dstPort)
        (g.shownEdge e) := by
  rw [edgeStmt, endpoint_eq, endpoint_eq]
  simp only [unlessPorts_map, unlessPorts_bind]
  rfl

theorem edgeStmts_eq_unlessPorts (g : Graph) :
    g.edgeStmts = unlessPorts g.portsOnShown (g.edges.toList.map g.shownEdge) := by
  rw [edgeStmts, portsOnShown]
  induction g.edges.toList with
  | nil => rfl
  | cons e rest ih =>
      rw [List.mapM_cons, ih, edgeStmt_eq, List.flatMap_cons, List.map_cons]
      simp only [pure, Except.pure, unlessPorts_map, unlessPorts_bind]

theorem exists_port_of_edgeStmts_error {e : Error} (h : g.edgeStmts = .error e) :
    ∃ name port, e = .portOnSubgraph name port := by
  rw [edgeStmts_eq_unlessPorts] at h
  exact exists_port_of_unlessPorts_error h

theorem length_edgeStmts {edges : List EdgeStmt} (h : g.edgeStmts = .ok edges) :
    edges.length = g.edges.toList.length := by
  rw [edgeStmts_eq_unlessPorts, unlessPorts_eq_ok_iff] at h
  rw [h.2, List.length_map]

/-! ## Documents -/

theorem outline_eq_of_orphans {s : Settings} (hs : s.emitOrphans = true) :
    g.outline s =
      g.rootStmts s.maxDepth >>= fun r => g.orphanBlocks s.maxDepth r.2 >>= fun b =>
        .ok ⟨attrStmts g.name g.attrs, r.1, b.1, g.orphanNodes b.2.written⟩ := by
  simp only [outline, hs, if_true]

theorem outline_eq_of_no_orphans {s : Settings} (hs : s.emitOrphans = false) :
    g.outline s =
      g.rootStmts s.maxDepth >>= fun r => .ok ⟨attrStmts g.name g.attrs, r.1, [], []⟩ := by
  simp only [outline, hs, Bool.false_eq_true, if_false]

theorem outline_ok_cases_of_orphans {s : Settings} {o : Outline} (hs : s.emitOrphans = true)
    (h : g.outline s = .ok o) :
    ∃ members between blocks after,
      g.rootStmts s.maxDepth = .ok (members, between) ∧
      g.orphanBlocks s.maxDepth between = .ok (blocks, after) ∧
      o = ⟨attrStmts g.name g.attrs, members, blocks, g.orphanNodes after.written⟩ := by
  rw [outline_eq_of_orphans hs, bind_eq_ok_iff] at h
  obtain ⟨⟨members, between⟩, hmembers, h⟩ := h
  rw [bind_eq_ok_iff] at h
  obtain ⟨⟨blocks, after⟩, hblocks, h⟩ := h
  cases h
  exact ⟨members, between, blocks, after, hmembers, hblocks, rfl⟩

theorem outline_ok_cases_of_no_orphans {s : Settings} {o : Outline} (hs : s.emitOrphans = false)
    (h : g.outline s = .ok o) :
    ∃ members after, g.rootStmts s.maxDepth = .ok (members, after) ∧
      o = ⟨attrStmts g.name g.attrs, members, [], []⟩ := by
  rw [outline_eq_of_no_orphans hs, bind_eq_ok_iff] at h
  obtain ⟨⟨members, after⟩, hmembers, h⟩ := h
  cases h
  exact ⟨members, after, hmembers, rfl⟩

theorem toDocument_eq {s : Settings} :
    g.toDocument s =
      g.outline s >>= fun o => g.edgeStmts >>= fun es =>
        .ok ⟨g.header, o.stmts ++ es.map .edge⟩ :=
  rfl

theorem toDocument_ok_cases {s : Settings} {doc : Document} (h : g.toDocument s = .ok doc) :
    ∃ o edges, g.outline s = .ok o ∧ g.edgeStmts = .ok edges ∧
      doc = ⟨g.header, o.stmts ++ edges.map .edge⟩ := by
  rw [toDocument_eq, bind_eq_ok_iff] at h
  obtain ⟨o, ho, h⟩ := h
  rw [bind_eq_ok_iff] at h
  obtain ⟨edges, hedges, h⟩ := h
  cases h
  exact ⟨o, edges, ho, hedges, rfl⟩

theorem toDocument_error_cases {s : Settings} {e : Error} (h : g.toDocument s = .error e) :
    g.outline s = .error e ∨ g.edgeStmts = .error e := by
  rw [toDocument_eq, bind_eq_error_iff] at h
  rcases h with h | ⟨_, _, h⟩
  · exact Or.inl h
  · rw [bind_eq_error_iff] at h
    rcases h with h | ⟨_, _, h⟩
    · exact Or.inr h
    · cases h

end DotModel.Graph
