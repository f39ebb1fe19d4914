import DotModel.Proofs.Writing.Placement

/-!
# Where orphans are written

Without orphans a document has the attributes of the graph, the members that its own scope leads to,
and the edges.  With orphans two parts are inserted before the edges: one block for each topmost of
the subgraphs that the scope does not lead to, and the nodes that no written scope has.

The walk through the graph's own scope expands exactly the subgraphs that it reaches.  What is left
is written by the first round over the pending subgraphs, each from its top, in whatever order they
were registered; the second round finds nothing to do.
-/

namespace DotModel.Graph

open Relation

variable {g : Graph} {s : Settings} {limit room : Nat}
  {path names expanded expanded' between tops lost : List String} {places members : List Place}
  {name scope u : String} {after : Progress}

/-! ## What is reached -/

/-- What a walk along members of a scope expands is below that scope. -/
theorem Walk.transGen_holds (w : Walk g room path names expanded places expanded')
    (hnames : ∀ n ∈ names, n ∈ g.children scope) (hu : u ∈ expanded') (hnew : u ∉ expanded) :
    TransGen g.Holds scope u := by
  induction w generalizing scope with
  | nil => exact absurd hu hnew
  | node _ _ ih => exact ih (List.forall_mem_cons.mp hnames).2 hu hnew
  | skip _ _ ih => exact ih (List.forall_mem_cons.mp hnames).2 hu hnew
  | mention _ _ _ _ ih => exact ih (List.forall_mem_cons.mp hnames).2 hu hnew
  | @body room path name names expanded inside between places expanded' hshown _ _ _ _
      ihinner ihrest =>
      rw [List.forall_mem_cons] at hnames
      have hstep : g.Holds scope name := ⟨hnames.1, hshown⟩
      by_cases hbetween : u ∈ between
      · by_cases hname : u = name
        · exact hname ▸ .single hstep
        · have hcons : u ∉ name :: expanded := by simp [hname, hnew]
          exact .head hstep (ihinner (fun _ hn => hn) hbetween hcons)
      · exact ihrest hnames.2 hu hbetween

/-- The walk through the graph's own scope expands what is reached, and nothing else. -/
theorem Walk.mem_iff_isReached
    (w : Walk g limit [g.name] (g.children g.name) [] places expanded) :
    u ∈ expanded ↔ g.IsReached u := by
  constructor
  · intro hu
    exact w.transGen_holds (fun _ hn => hn) hu List.not_mem_nil
  · intro hu
    obtain ⟨first, hstep, hrest⟩ := TransGen.head'_iff.mp hu
    have hfirst : first ∈ expanded := (w.mem_of_mem_names hstep.1 hstep.2).1
    exact (w.finished_root.reflTransGen hfirst List.not_mem_nil hrest).1

/-! ## Topmost orphans -/

/-- A shown subgraph that the graph's own scope does not lead to. -/
def IsUnreached (g : Graph) (name : String) : Prop := g.IsShown name ∧ ¬g.IsReached name

/-- An unreached subgraph that no other unreached subgraph has among its members. -/
def IsTopmost (g : Graph) (name : String) : Prop :=
  g.IsUnreached name ∧ ∀ p ∈ g.relations.parents name, p ≠ name → ¬g.IsUnreached p

/-- Whatever holds an unreached subgraph is unreached itself. -/
theorem IsUnreached.of_holds {parent : String} (hu : g.IsUnreached u) (hp : g.IsShown parent)
    (hstep : g.Holds parent u) : g.IsUnreached parent :=
  ⟨hp, fun hreached => hu.2 (hreached.tail hstep)⟩

/-- Without cycles the topmost orphans are those that no shown subgraph holds. -/
theorem isTopmost_iff (hg : g.Coherent) (hacyclic : ∀ n, ¬g.OnCycle n) :
    g.IsTopmost u ↔ g.IsUnreached u ∧ ∀ p, g.IsShown p → ¬g.Holds p u := by
  constructor
  · rintro ⟨hu, hparents⟩
    refine ⟨hu, ?_⟩
    intro p hp hstep
    by_cases hpu : p = u
    · subst hpu
      exact hacyclic p (onCycle_iff.mpr (.single hstep))
    · exact hparents p ((hg.relations p u).mpr hstep.1) hpu (hu.of_holds hp hstep)
  · rintro ⟨hu, hunheld⟩
    refine ⟨hu, ?_⟩
    intro p hparent _ hp
    exact hunheld p hp.1 ⟨(hg.relations p u).mp hparent, hu.1⟩

/-- The walk over the orphans begins each block with a topmost one. -/
theorem mem_tops_iff_isTopmost (hg : g.Coherent) (hacyclic : ∀ n, ¬g.OnCycle n)
    (hbetween : ∀ n, n ∈ between ↔ g.IsReached n)
    (w : Walk g limit [] tops between places expanded)
    (htops : ∀ n ∈ tops, g.IsShown n ∧ n ∉ between ∧ ∀ p, g.IsShown p → ¬g.Holds p n)
    (hall : ∀ n, g.IsShown n → n ∈ expanded) : u ∈ tops ↔ g.IsTopmost u := by
  rw [isTopmost_iff hg hacyclic]
  constructor
  · intro hu
    obtain ⟨hshown, hnew, hunheld⟩ := htops u hu
    exact ⟨⟨hshown, fun hreached => hnew ((hbetween u).mpr hreached)⟩, hunheld⟩
  · rintro ⟨⟨hshown, hunreached⟩, hunheld⟩
    have hnew : u ∉ between := fun h => hunreached ((hbetween u).mp h)
    rcases w.mem_names_or_holds (hall u hshown) hnew with htop | ⟨p, hp, hstep⟩
    · exact htop
    · exact absurd hstep (hunheld p hp)

/-- Subgraphs that nothing holds are not met before their own turn, so each is written in full. -/
theorem Walk.exists_body (w : Walk g room path names expanded places expanded')
    (hnodup : names.Nodup)
    (hnames : ∀ n ∈ names, g.IsShown n ∧ n ∉ expanded ∧ ∀ p, g.IsShown p → ¬g.Holds p n) :
    ∀ place ∈ places, ∃ inside, place = .body place.name inside := by
  induction w with
  | nil => simp
  | node hnode _ _ => exact absurd hnode (hnames _ List.mem_cons_self).1.not_isNode
  | skip hlive _ _ => exact absurd (hnames _ List.mem_cons_self).1.isLive hlive
  | mention _ _ hold _ _ => exact absurd hold (hnames _ List.mem_cons_self).2.1
  | @body room path name names expanded inside between places expanded' hshown _ _ inner _ _
      ihrest =>
      rw [List.nodup_cons] at hnodup
      rw [List.forall_mem_cons] at hnames ⊢
      refine ⟨⟨inside, rfl⟩, ihrest hnodup.2 ?_⟩
      intro n hn
      obtain ⟨hnshown, hnew, hunheld⟩ := hnames.2 n hn
      refine ⟨hnshown, ?_, hunheld⟩
      intro hbetween
      have hne : n ≠ name := fun heq => hnodup.1 (heq ▸ hn)
      have hcons : n ∉ name :: expanded := by simp [hne, hnew]
      rcases inner.mem_names_or_holds hbetween hcons with hchild | ⟨p, hp, hstep⟩
      · exact hunheld name hshown ⟨hchild, hnshown⟩
      · exact hunheld p hp hstep

/-! ## The layout -/

/-- How the members that the graph's own scope does not lead to are written: `members` stand in that
scope, `orphans` and the nodes `lost` behind it. -/
structure IsOrphanLayout (g : Graph) (members orphans : List Place) (lost : List String) :
    Prop where
  /-- The blocks behind the scope follow the order of registration. -/
  tops_sublist : (orphans.map Place.name).Sublist g.subgraphs.keys
  /-- There is one for each topmost orphan. -/
  mem_tops : ∀ u, u ∈ orphans.map Place.name ↔ g.IsTopmost u
  /-- Each of them is written in full. -/
  tops_full : ∀ place ∈ orphans, ∃ inside, place = .body place.name inside
  /-- What is reached is written in full inside the scope, once. -/
  reached_once : ∀ u, g.IsReached u → ∃ inside later,
    Place.blocks u (members ++ orphans) = .body u inside :: later ∧
    .body u inside ∈ Place.blocks u members ∧ ∀ b ∈ later, b = .mention u
  /-- What is not reached is written in full behind it, once, and does not stand in it. -/
  unreached_once : ∀ u, g.IsUnreached u → Place.blocks u members = [] ∧ ∃ inside later,
    Place.blocks u orphans = .body u inside :: later ∧ ∀ b ∈ later, b = .mention u
  /-- Nothing else has a block. -/
  written : ∀ u, Place.blocks u (members ++ orphans) ≠ [] ↔ g.IsShown u
  /-- The nodes behind the scope follow the order of declaration. -/
  lost_sublist : lost.Sublist g.nodes.keys
  /-- They are those that neither the graph's own scope nor a written subgraph has. -/
  mem_lost : ∀ n, n ∈ lost ↔ g.isNode n = true ∧
    ∀ scope, scope = g.name ∨ Place.blocks scope (members ++ orphans) ≠ [] →
      n ∉ g.children scope

section Layout

variable {orphans : List Place}

/-- After two walks just the subgraphs that are expanded have blocks. -/
theorem blocks_append_ne_nil_iff {path' names' : List String}
    (w₁ : Walk g room path names [] members between)
    (w₂ : Walk g limit path' names' between orphans expanded) :
    Place.blocks u (members ++ orphans) ≠ [] ↔ u ∈ expanded := by
  rw [Place.blocks_append]
  by_cases hbetween : u ∈ between
  · obtain ⟨inside, later, hblocks, -, -⟩ := w₁.exists_blocks_eq_cons List.not_mem_nil hbetween
    simp [hblocks, w₂.subset hbetween]
  · rw [w₁.blocks_eq_nil hbetween, List.nil_append]
    by_cases hu : u ∈ expanded
    · obtain ⟨inside, later, hblocks, -, -⟩ := w₂.exists_blocks_eq_cons hbetween hu
      simp [hblocks, hu]
    · simp [w₂.blocks_eq_nil hu, hu]

/-- A subgraph that the first of two walks expands has its full block there, and is only mentioned
afterwards. -/
theorem exists_blocks_append_eq_cons {path' names' : List String}
    (w₁ : Walk g room path names [] members between)
    (w₂ : Walk g limit path' names' between orphans expanded) (hu : u ∈ between) :
    ∃ inside later, Place.blocks u (members ++ orphans) = .body u inside :: later ∧
      .body u inside ∈ Place.blocks u members ∧ ∀ b ∈ later, b = .mention u := by
  obtain ⟨inside, later, hblocks, -, hlater⟩ := w₁.exists_blocks_eq_cons List.not_mem_nil hu
  refine ⟨inside, later ++ Place.blocks u orphans, ?_, ?_, ?_⟩
  · rw [Place.blocks_append, hblocks, List.cons_append]
  · rw [hblocks]
    exact List.mem_cons_self
  · rw [List.forall_mem_append]
    exact ⟨hlater, w₂.eq_mention_of_mem_blocks hu⟩

/-- The two walks of a writing, through the graph's own scope and over the orphans, and the nodes
that they leave make up the layout. -/
theorem isOrphanLayout_of_walks (hg : g.Coherent) (hacyclic : ∀ n, ¬g.OnCycle n)
    (hwritten : after.HasWritten g)
    (w₁ : Walk g limit [g.name] (g.children g.name) [] members between)
    (w₂ : Walk g limit [] tops between orphans after.expanded)
    (hsub : tops.Sublist g.subgraphs.keys)
    (htops : ∀ n ∈ tops, g.IsShown n ∧ n ∉ between ∧ ∀ p, g.IsShown p → ¬g.Holds p n)
    (hall : ∀ n, g.IsShown n → n ∈ after.expanded) :
    g.IsOrphanLayout members orphans (g.looseNodes after.written) := by
  have hreached : ∀ n, n ∈ between ↔ g.IsReached n := fun _ => w₁.mem_iff_isReached
  have hlive : g.live tops = tops := by
    rw [live, List.filter_eq_self]
    exact fun n hn => decide_eq_true (htops n hn).1.isLive
  have hnames : orphans.map Place.name = tops := w₂.map_name.trans hlive
  have hexpanded : ∀ n, g.IsShown n ↔ n ∈ after.expanded := w₁.isShown_iff w₂ hall
  have hblocks : ∀ n, Place.blocks n (members ++ orphans) ≠ [] ↔ g.IsShown n := by
    intro n
    rw [blocks_append_ne_nil_iff w₁ w₂, hexpanded]
  exact
    { tops_sublist := hnames ▸ hsub
      mem_tops := by
        intro u
        rw [hnames]
        exact mem_tops_iff_isTopmost hg hacyclic hreached w₂ htops hall
      tops_full := w₂.exists_body (g.subgraphs.keys_nodup.sublist hsub) htops
      reached_once := fun u hu => exists_blocks_append_eq_cons w₁ w₂ ((hreached u).mpr hu)
      unreached_once := by
        intro u hu
        have hbetween : u ∉ between := fun h => hu.2 ((hreached u).mp h)
        obtain ⟨inside, later, hbody, -, hlater⟩ :=
          w₂.exists_blocks_eq_cons hbetween (hall u hu.1)
        exact ⟨w₁.blocks_eq_nil hbetween, inside, later, hbody, hlater⟩
      written := hblocks
      lost_sublist := List.filter_sublist
      mem_lost := by
        intro n
        rw [mem_looseNodes_iff hwritten hexpanded]
        simp only [hblocks]
        rfl }

/-- With orphans a document has two more parts before the edges than without: the blocks of the
topmost subgraphs that the graph's own scope does not lead to, and the nodes that no written scope
has.  The first round over the pending subgraphs writes all of these blocks. -/
theorem exists_orphanLayout_of_toDocument (hg : g.Reachable) (hs : s.emitOrphans = true)
    {doc : Document} (h : g.toDocument s = .ok doc) :
    ∃ (members orphans : List Place) (lost : List String) (edges : List EdgeStmt),
      g.edgeStmts = .ok edges ∧
      doc.stmts =
        ((attrStmts g.name g.attrs).map .attr ++ Place.toStmts g members) ++
          Place.toStmts g orphans ++ Place.toStmts g (lost.map .node) ++ edges.map .edge ∧
      g.toDocument { s with emitOrphans := false } =
        .ok ⟨doc.header, ((attrStmts g.name g.attrs).map .attr ++ Place.toStmts g members) ++
          edges.map .edge⟩ ∧
      g.IsOrphanLayout members orphans lost ∧
      ∃ before after,
        g.rootStmts s.maxDepth = .ok (Place.toStmts g members, before) ∧
        g.pendingBlocks s.maxDepth g.waits (g.subgraphs.values.map Member.name) before =
          .ok (Place.toStmts g orphans, after) ∧
        g.pendingBlocks s.maxDepth (fun _ _ => false) (g.subgraphs.values.map Member.name) after =
          .ok ([], after) := by
  have hcoherent : g.Coherent := hg.coherent
  obtain ⟨o, edges, ho, hedges, rfl⟩ := toDocument_ok_cases h
  obtain ⟨stmts, between, blocks, after, hroot, horphans, rfl⟩ :=
    outline_ok_cases_of_orphans hs ho
  have hwritten : after.HasWritten g :=
    (hasWritten_of_rootStmts hcoherent hroot).orphanBlocks hcoherent horphans
  obtain ⟨members, w₁, rfl⟩ := exists_walk_of_rootStmts hroot
  obtain ⟨hacyclic, hfirst, hsecond⟩ :=
    rounds_of_orphanBlocks hcoherent w₁.finished_root horphans
  obtain ⟨tops, orphans, w₂, rfl, hsub, htops, hall⟩ :=
    exists_walk_of_orphanBlocks hcoherent w₁.finished_root horphans
  refine ⟨members, orphans, g.looseNodes after.written, edges, hedges, ?_, ?_,
    isOrphanLayout_of_walks hcoherent hacyclic hwritten w₁ w₂ hsub htops hall, between, after,
    hroot, ?_, ?_⟩
  · simp only [Outline.stmts, hcoherent.orphanNodes_eq]
  · rw [toDocument_eq, outline_eq_of_no_orphans rfl, hroot, ok_bind, ok_bind, hedges, ok_bind]
    simp only [Outline.stmts, List.append_nil]
  · rw [hcoherent.subgraphs.map_name_values]
    exact hfirst
  · rw [hcoherent.subgraphs.map_name_values]
    exact hsecond

end Layout

/-- A renamed graph: of what it had before, `child` was registered before the subgraph that holds
it, and `n` stands in a scope that does not exist. -/
def renamed : Graph :=
  empty.performAll [.setName "G", .addSubgraph "G" "child" ∅, .addSubgraph "G" "top" ∅,
    .addSubgraph "top" "child" ∅, .addNode "gone" "n" ∅, .setName "H", .addSubgraph "H" "kept" ∅]

/-- Behind the scope stand the block of `top`, with `child` in it, and the node `n`. -/
theorem renamed_orphanLayout :
    renamed.Reachable ∧ Settings.emitOrphans {} = true ∧
      renamed.toDocument {} = .ok ⟨renamed.header,
        [.subgraph (.ofName "kept") [] [],
          .subgraph (.ofName "top") [] [.subgraph (.ofName "child") [] []],
          .node ⟨⟨.ofName "n", none⟩, []⟩]⟩ ∧
      ∃ members orphans lost, renamed.IsOrphanLayout members orphans lost ∧
        orphans.map Place.name = ["top"] ∧ lost = ["n"] := by
  have hreachable : renamed.Reachable := ⟨_, rfl⟩
  have hdoc : renamed.toDocument {} = .ok ⟨renamed.header,
      [.subgraph (.ofName "kept") [] [],
        .subgraph (.ofName "top") [] [.subgraph (.ofName "child") [] []],
        .node ⟨⟨.ofName "n", none⟩, []⟩]⟩ := by decide +kernel
  obtain ⟨members, orphans, lost, edges, hedges, hstmts, -, hlayout, before, after, hroot, hpending,
    -⟩ := exists_orphanLayout_of_toDocument hreachable rfl hdoc
  have hroot' : renamed.rootStmts 64 =
      .ok ([.subgraph (.ofName "kept") [] []], ⟨["kept"], []⟩) := by decide +kernel
  have hpending' : renamed.pendingBlocks 64 renamed.waits
      (renamed.subgraphs.values.map Member.name) ⟨["kept"], []⟩ =
        .ok ([.subgraph (.ofName "top") [] [.subgraph (.ofName "child") [] []]],
          ⟨["child", "top", "kept"], []⟩) := by decide +kernel
  obtain ⟨hmembers, rfl⟩ := Prod.mk.inj (Except.ok.inj (hroot.symm.trans hroot'))
  obtain ⟨horphans, -⟩ := Prod.mk.inj (Except.ok.inj (hpending.symm.trans hpending'))
  refine ⟨hreachable, rfl, hdoc, members, orphans, lost, hlayout, ?_, ?_⟩
  · -- The one block has a name among the registered ones, and is written as that of `top`.
    obtain ⟨place, rfl⟩ : ∃ place, orphans = [place] := by
      rw [← List.length_eq_one_iff, ← List.length_map (Place.toStmt renamed),
        ← Place.toStmts_eq_map, horphans]
      rfl
    obtain ⟨inside, hbody⟩ := hlayout.tops_full place (List.mem_singleton_self place)
    rw [Place.toStmts_cons, hbody, Place.toStmt] at horphans
    have hid : Ident.ofName place.name = .ofName "top" :=
      (Stmt.subgraph.inj (List.cons.inj horphans).1).1
    have hkeys : renamed.subgraphs.keys = ["child", "top", "kept"] := by decide
    have hname : place.name ∈ renamed.subgraphs.keys :=
      hlayout.tops_sublist.subset List.mem_cons_self
    simp only [hkeys, List.mem_cons, List.not_mem_nil, or_false] at hname
    rcases hname with hchild | htop | hkept
    · exact absurd (hchild ▸ hid) (by decide)
    · rw [List.map_singleton, htop]
    · exact absurd (hkept ▸ hid) (by decide)
  · have hkeys : renamed.nodes.keys = ["n"] := by decide
    have hsub := hlayout.lost_sublist
    rw [hkeys, List.sublist_singleton] at hsub
    refine hsub.resolve_left ?_
    rintro rfl
    have hnone : edges = [] := Except.ok.inj (hedges.symm.trans rfl)
    rw [hmembers, horphans, hnone] at hstmts
    exact absurd hstmts (by decide)

end DotModel.Graph
