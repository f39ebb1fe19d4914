import DotModel.Proofs.Writing.Cycles
import DotModel.Proofs.Writing.Written

/-!
# The course of a whole writing

With orphans, writing a graph is one walk inside the graph's own scope.  It goes along the members
of that scope and then along the *loose* names, which are those of the live members that no shown
scope holds: first the loose subgraphs, then the loose nodes.  This needs that the graph's name is
not that of a subgraph, since a block of that name would be inside of itself.
-/

namespace DotModel.Graph

variable {g : Graph} {s : Settings} {limit room : Nat}
  {path names expanded expanded' lost written : List String} {places : List Place} {name : String}
  {after : Progress}

/-- The graph's own scope, or that of a shown subgraph. -/
def IsShownScope (g : Graph) (scope : String) : Prop := scope = g.name ∨ g.IsShown scope

/-- No shown scope has this member. -/
def IsLoose (g : Graph) (name : String) : Prop :=
  ∀ scope, g.IsShownScope scope → name ∉ g.children scope

/-- A walk through the whole of a graph: along the members of its own scope, then along the loose
ones, each once, until every shown subgraph is expanded. -/
structure Course (g : Graph) (limit : Nat) (lost : List String) (places : List Place)
    (expanded : List String) : Prop where
  walk : Walk g limit [g.name] (g.children g.name ++ lost) [] places expanded
  nodup_lost : lost.Nodup
  mem_lost : ∀ c, c ∈ lost ↔ g.IsLive c ∧ g.IsLoose c
  complete : ∀ u, g.IsShown u → u ∈ expanded

/-- A walk may stand inside one more scope, if that is not a shown subgraph. -/
theorem Walk.inside (w : Walk g room path names expanded places expanded')
    (hname : ¬g.IsShown name) :
    Walk g room (path ++ [name]) names expanded places expanded' := by
  have hopen : ∀ {n : String} {path : List String}, g.IsShown n → n ∉ path →
      n ∉ path ++ [name] := by
    intro n path hn hpath
    rw [List.mem_append, List.mem_singleton, not_or]
    exact ⟨hpath, fun heq => hname (heq ▸ hn)⟩
  induction w with
  | nil => exact .nil
  | node hnode _ ih => exact .node hnode ih
  | skip hlive _ ih => exact .skip hlive ih
  | mention hshown hpath hold _ ih => exact .mention hshown (hopen hshown hpath) hold ih
  | body hshown hpath hnew _ _ ihinner ihrest =>
      exact .body hshown (hopen hshown hpath) hnew ihinner ihrest

theorem Walk.nodes (hnames : ∀ n ∈ names, g.isNode n = true) :
    Walk g room path names expanded (names.map .node) expanded := by
  induction names with
  | nil => exact .nil
  | cons n rest ih =>
      have hrest : ∀ m ∈ rest, g.isNode m = true := fun m hm =>
        hnames m (List.mem_cons_of_mem n hm)
      exact .node (hnames n List.mem_cons_self) (ih hrest)

/-! ## Loose nodes -/

/-- The names of the nodes that are not written yet, in the order of declaration. -/
def looseNodes (g : Graph) (written : List String) : List String :=
  g.nodes.keys.filter fun name => !written.contains name

theorem Coherent.orphanNodes_eq (hg : g.Coherent) :
    g.orphanNodes written = Place.toStmts g ((g.looseNodes written).map .node) := by
  have hstmt : ∀ m ∈ g.nodes.values, Place.toStmt g (.node m.name) = nodeStmt m := by
    intro m hm
    obtain ⟨k, hk⟩ := OrdMap.mem_values_iff.mp hm
    have hname : m.name = k := hg.nodes k m hk
    have hfind : g.node? m.name = some m := hname ▸ hk
    rw [Place.toStmt, hfind]
    rfl
  rw [orphanNodes, looseNodes, ← hg.nodes.map_name_values, List.filter_map, Place.toStmts_eq_map,
    List.map_map, List.map_map]
  apply List.map_congr_left
  intro m hm
  exact (hstmt m (List.mem_of_mem_filter hm)).symm

theorem isNode_of_mem_looseNodes (h : name ∈ g.looseNodes written) : g.isNode name = true := by
  rw [looseNodes, List.mem_filter] at h
  exact isNode_eq_true_iff.mpr (OrdMap.mem_def.mpr h.1)

theorem mem_looseNodes_iff (hwritten : after.HasWritten g)
    (hall : ∀ u, g.IsShown u ↔ u ∈ after.expanded) :
    name ∈ g.looseNodes after.written ↔ g.isNode name = true ∧ g.IsLoose name := by
  rw [looseNodes, List.mem_filter, ← OrdMap.mem_def, ← isNode_eq_true_iff]
  simp only [List.contains_eq_mem, Bool.not_eq_true', decide_eq_false_iff_not, hwritten name,
    not_and, not_exists]
  constructor
  · rintro ⟨hnode, hfree⟩
    refine ⟨hnode, ?_⟩
    intro scope hscope
    exact hfree hnode scope (hscope.imp_right (hall scope).mp)
  · rintro ⟨hnode, hloose⟩
    refine ⟨hnode, ?_⟩
    intro _ scope hscope
    exact hloose scope (hscope.imp_right (hall scope).mpr)

/-! ## Loose subgraphs -/

/-- What a walk from the graph's own scope and along further shown subgraphs leaves out is loose,
and what is loose stands among the further ones. -/
theorem mem_tops_iff {between : List String} {tops : List String} {places' : List Place}
    (w₁ : Walk g limit [g.name] (g.children g.name) [] places between)
    (w₂ : Walk g limit [] tops between places' expanded)
    (htops : ∀ u ∈ tops, g.IsShown u ∧ u ∉ between ∧ ∀ p, g.IsShown p → ¬g.Holds p u)
    (hall : ∀ u, g.IsShown u → u ∈ expanded) :
    name ∈ tops ↔ g.IsShown name ∧ g.IsLoose name := by
  constructor
  · intro hname
    obtain ⟨hshown, hnew, hheld⟩ := htops name hname
    refine ⟨hshown, ?_⟩
    rintro scope (rfl | hscope) hchild
    · exact hnew (w₁.mem_of_mem_names hchild hshown).1
    · exact hheld scope hscope ⟨hchild, hshown⟩
  · rintro ⟨hshown, hloose⟩
    have hunheld : ¬∃ p, g.IsShown p ∧ g.Holds p name := by
      rintro ⟨p, hp, hstep⟩
      exact hloose p (Or.inr hp) hstep.1
    have hnew : name ∉ between := by
      intro hbetween
      rcases w₁.mem_names_or_holds hbetween List.not_mem_nil with hchild | hheld
      · exact hloose g.name (Or.inl rfl) hchild
      · exact hunheld hheld
    exact (w₂.mem_names_or_holds (hall name hshown) hnew).resolve_right hunheld

/-! ## The whole -/

/-- A walk from the graph's own scope and one along the loose subgraphs, with the loose nodes after
them, make up the course of a whole writing. -/
theorem Course.of_walks {between tops : List String} {places' : List Place}
    (hwritten : after.HasWritten g) (hname : ¬g.IsShown g.name)
    (w₁ : Walk g limit [g.name] (g.children g.name) [] places between)
    (w₂ : Walk g limit [] tops between places' after.expanded)
    (hsub : tops.Sublist g.subgraphs.keys)
    (htops : ∀ u ∈ tops, g.IsShown u ∧ u ∉ between ∧ ∀ p, g.IsShown p → ¬g.Holds p u)
    (hall : ∀ u, g.IsShown u → u ∈ after.expanded) :
    Course g limit (tops ++ g.looseNodes after.written)
      (places ++ (places' ++ (g.looseNodes after.written).map .node)) after.expanded := by
  have hexpanded : ∀ u, g.IsShown u ↔ u ∈ after.expanded := w₁.isShown_iff w₂ hall
  have hnodes : ∀ n ∈ g.looseNodes after.written, g.isNode n = true := fun n hn =>
    isNode_of_mem_looseNodes hn
  refine ⟨?_, ?_, ?_, hall⟩
  -- The orphan blocks were written inside of no scope; the graph's own does not disturb them.
  · exact w₁.append ((w₂.inside hname).append (.nodes hnodes))
  · rw [List.nodup_append]
    refine ⟨g.subgraphs.keys_nodup.sublist hsub,
      g.nodes.keys_nodup.sublist List.filter_sublist, ?_⟩
    rintro u hu _ hn rfl
    exact (htops u hu).1.not_isNode (hnodes u hn)
  · intro c
    rw [List.mem_append, mem_tops_iff w₁ w₂ htops hall, mem_looseNodes_iff hwritten hexpanded,
      isLive_iff, or_and_right, or_comm]

/-- A document with orphans is the course of a walk through the whole graph, between the attributes
and the edges. -/
theorem exists_course_of_toDocument {doc : Document} (hg : g.Coherent)
    (hname : g.isSubgraph g.name = false) (hs : s.emitOrphans = true)
    (h : g.toDocument s = .ok doc) :
    ∃ lost places expanded edges, Course g s.maxDepth lost places expanded ∧
      g.edgeStmts = .ok edges ∧
      doc = ⟨g.header,
        (attrStmts g.name g.attrs).map .attr ++ Place.toStmts g places ++ edges.map .edge⟩ := by
  obtain ⟨o, edges, ho, hedges, rfl⟩ := toDocument_ok_cases h
  obtain ⟨members, between, blocks, after, hroot, horphans, rfl⟩ :=
    outline_ok_cases_of_orphans hs ho
  obtain ⟨places, w₁, rfl⟩ := exists_walk_of_rootStmts hroot
  obtain ⟨tops, places', w₂, rfl, hsub, htops, hall⟩ :=
    exists_walk_of_orphanBlocks hg w₁.finished_root horphans
  have hwritten : after.HasWritten g := (hasWritten_of_rootStmts hg hroot).orphanBlocks hg horphans
  have hcourse : Course g s.maxDepth _ _ after.expanded :=
    .of_walks hwritten (not_isShown_of_not_isSubgraph hname) w₁ w₂ hsub htops hall
  refine ⟨_, _, after.expanded, edges, hcourse, hedges, ?_⟩
  simp only [Outline.stmts, Place.toStmts_append, hg.orphanNodes_eq, List.append_assoc]

end DotModel.Graph
