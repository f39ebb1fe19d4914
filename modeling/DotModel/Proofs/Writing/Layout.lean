import DotModel.Proofs.Writing.Placement

/-!
# Layouts

Which statements a document has, at every level: those of a *layout*, in which every node statement
stands for a declared node and every block for a shown subgraph.  The live members of the graph's
own scope come first and each body has the live members of its subgraph, both in order; at the top
level no member stands twice.  With orphans every live member has a place.
-/

namespace DotModel

/-! ## Everything within a document -/

namespace Stmt

mutual

/-- A statement and all statements within it, in the order of the document. -/
def flatten : Stmt → List Stmt
  | .attr stmt => [.attr stmt]
  | .node stmt => [.node stmt]
  | .edge stmt => [.edge stmt]
  | .subgraph id attrs body => .subgraph id attrs body :: flattenAll body

/-- All statements of a body and within it, in the order of the document. -/
def flattenAll : List Stmt → List Stmt
  | [] => []
  | s :: rest => flatten s ++ flattenAll rest

end

theorem flattenAll_append (stmts rest : List Stmt) :
    flattenAll (stmts ++ rest) = flattenAll stmts ++ flattenAll rest := by
  induction stmts with
  | nil => rfl
  | cons s stmts ih => rw [List.cons_append, flattenAll, flattenAll, ih, List.append_assoc]

end Stmt

namespace Place

variable {places : List Place} {place : Place} {u : String} {inside : List Place}

mutual

theorem flatten_toStmt (g : Graph) (place : Place) :
    (place.toStmt g).flatten = place.flatten.map (toStmt g) :=
  match place with
  | .node _ => rfl
  | .mention _ => rfl
  | .body _ inside => congrArg (_ :: ·) (flattenAll_toStmts g inside)

/-- The statements of places, at every level, are those of all places in them. -/
theorem flattenAll_toStmts (g : Graph) (places : List Place) :
    Stmt.flattenAll (toStmts g places) = (flattenAll places).map (toStmt g) :=
  match places with
  | [] => rfl
  | place :: rest => by
      rw [toStmts_cons, Stmt.flattenAll, flatten_toStmt g place, flattenAll_toStmts g rest,
        flattenAll_cons, List.map_append]

end

theorem mem_flatten_self (place : Place) : place ∈ place.flatten := by
  cases place <;> simp [flatten]

theorem mem_flattenAll_of_mem (h : place ∈ places) : place ∈ flattenAll places := by
  induction places with
  | nil => cases h
  | cons first rest ih =>
      rw [flattenAll_cons, List.mem_append]
      rcases List.mem_cons.mp h with rfl | h
      · exact Or.inl place.mem_flatten_self
      · exact Or.inr (ih h)

mutual

theorem flattenAll_subset_of_mem_flatten (place : Place) (h : .body u inside ∈ place.flatten) :
    flattenAll inside ⊆ place.flatten :=
  match place with
  | .node _ => by simp [flatten] at h
  | .mention _ => by simp [flatten] at h
  | .body _ within => by
      rcases List.mem_cons.mp h with heq | h
      · cases heq
        exact List.subset_cons_self _ _
      · exact fun _ hp => List.mem_cons_of_mem _ (flattenAll_subset_of_mem within h hp)

/-- What stands within a body stands within the whole. -/
theorem flattenAll_subset_of_mem (places : List Place) (h : .body u inside ∈ flattenAll places) :
    flattenAll inside ⊆ flattenAll places :=
  match places with
  | [] => by cases h
  | place :: rest => by
      rw [flattenAll_cons] at h ⊢
      rcases List.mem_append.mp h with h | h
      · exact fun _ hp => List.mem_append_left _ (flattenAll_subset_of_mem_flatten place h hp)
      · exact fun _ hp => List.mem_append_right _ (flattenAll_subset_of_mem rest h hp)

end

theorem flattenAll_map_node (names : List String) :
    flattenAll (names.map .node) = names.map .node := by
  induction names with
  | nil => rfl
  | cons n rest ih =>
      rw [List.map_cons, flattenAll_cons, ih]
      rfl

/-- What may stand in a document of the graph: declared nodes, and shown subgraphs, in whose bodies
their live members stand in order. -/
def Fits (g : Graph) : Place → Prop
  | .node name => g.isNode name = true
  | .body name inside => g.IsShown name ∧ inside.map Place.name = g.live (g.children name)
  | .mention name => g.IsShown name

instance (g : Graph) (place : Place) : Decidable (place.Fits g) :=
  match place with
  | .node _ => inferInstanceAs (Decidable (_ = true))
  | .body _ _ => inferInstanceAs (Decidable (_ ∧ _))
  | .mention name => inferInstanceAs (Decidable (g.IsShown name))

end Place

namespace Graph

variable {g : Graph} {s : Settings} {room limit : Nat}
  {path names path' names' expanded expanded' between tops : List String} {places : List Place}
  {members orphans layout : List Place} {name u : String} {edges : List EdgeStmt} {doc : Document}
  {after : Progress}

/-! ## Layouts -/

/-- How a document shows the members of a graph: the live members of its own scope come first, no
member stands twice at the top level, and every place is for a member that may stand there. -/
structure IsLayout (g : Graph) (layout : List Place) : Prop where
  root : g.live (g.children g.name) <+: layout.map Place.name
  nodup : (layout.map Place.name).Nodup
  fits : ∀ place ∈ Place.flattenAll layout, place.Fits g

instance (layout : List Place) : Decidable (g.IsLayout layout) :=
  decidable_of_iff
    (g.live (g.children g.name) <+: layout.map Place.name ∧ (layout.map Place.name).Nodup ∧
      ∀ place ∈ Place.flattenAll layout, place.Fits g)
    ⟨fun h => ⟨h.1, h.2.1, h.2.2⟩, fun h => ⟨h.root, h.nodup, h.fits⟩⟩

theorem Walk.fits (w : Walk g room path names expanded places expanded') :
    ∀ place ∈ Place.flattenAll places, place.Fits g := by
  induction w with
  | nil => simp
  | node hnode _ ih => exact List.forall_mem_cons.mpr ⟨hnode, ih⟩
  | skip _ _ ih => exact ih
  | mention hshown _ _ _ ih => exact List.forall_mem_cons.mpr ⟨hshown, ih⟩
  | body hshown _ _ inner _ ihinner ihrest =>
      rw [Place.flattenAll_cons, List.forall_mem_append]
      exact ⟨List.forall_mem_cons.mpr ⟨⟨hshown, inner.map_name⟩, ihinner⟩, ihrest⟩

theorem fits_of_walks (w₁ : Walk g room path names [] members between)
    (w₂ : Walk g limit path' names' between orphans expanded) :
    ∀ place ∈ Place.flattenAll (members ++ orphans), place.Fits g := by
  rw [Place.flattenAll_append, List.forall_mem_append]
  exact ⟨w₁.fits, w₂.fits⟩

/-- A subgraph that one of two walks expands has a body in one of them. -/
theorem exists_body_of_walks (w₁ : Walk g room path names [] members between)
    (w₂ : Walk g limit path' names' between orphans expanded) (hu : u ∈ expanded) :
    ∃ inside, .body u inside ∈ Place.flattenAll (members ++ orphans) := by
  rw [Place.flattenAll_append]
  by_cases hbetween : u ∈ between
  · obtain ⟨inside, later, hblocks, -⟩ := w₁.exists_blocks_eq_cons List.not_mem_nil hbetween
    have hmem : .body u inside ∈ Place.blocks u members := hblocks ▸ List.mem_cons_self
    exact ⟨inside, List.mem_append_left _ (List.mem_of_mem_filter hmem)⟩
  · obtain ⟨inside, later, hblocks, -⟩ := w₂.exists_blocks_eq_cons hbetween hu
    have hmem : .body u inside ∈ Place.blocks u orphans := hblocks ▸ List.mem_cons_self
    exact ⟨inside, List.mem_append_right _ (List.mem_of_mem_filter hmem)⟩

/-- Two walks along whole scopes, until every shown subgraph is expanded, leave out only the nodes
that no shown scope has. -/
theorem mem_names_of_walks (hwritten : after.HasWritten g)
    (w₁ : Walk g limit [g.name] (g.children g.name) [] members between)
    (w₂ : Walk g limit path' names' between orphans after.expanded)
    (hall : ∀ u, g.IsShown u → u ∈ after.expanded) (hlive : g.IsLive name)
    (hnew : name ∉ g.looseNodes after.written) :
    name ∈ (Place.flattenAll (members ++ orphans)).map Place.name := by
  have hexpanded := w₁.isShown_iff w₂ hall
  rcases isLive_iff.mp hlive with hnode | hshown
  · rw [mem_looseNodes_iff hwritten hexpanded, not_and] at hnew
    obtain ⟨scope, hscope, hchild⟩ : ∃ scope, g.IsShownScope scope ∧ name ∈ g.children scope := by
      simpa [IsLoose] using hnew hnode
    have hmember : name ∈ g.live (g.children scope) := mem_live_iff.mpr ⟨hchild, hlive⟩
    rcases hscope with rfl | hscope
    · rw [← w₁.map_name] at hmember
      obtain ⟨place, hplace, rfl⟩ := List.mem_map.mp hmember
      exact List.mem_map_of_mem (Place.mem_flattenAll_of_mem (List.mem_append_left _ hplace))
    · obtain ⟨inside, hbody⟩ := exists_body_of_walks w₁ w₂ (hall scope hscope)
      rw [← (fits_of_walks w₁ w₂ _ hbody).2] at hmember
      obtain ⟨place, hplace, rfl⟩ := List.mem_map.mp hmember
      exact List.mem_map_of_mem
        (Place.flattenAll_subset_of_mem _ hbody (Place.mem_flattenAll_of_mem hplace))
  · obtain ⟨inside, hbody⟩ := exists_body_of_walks w₁ w₂ (hall name hshown)
    exact List.mem_map_of_mem (f := Place.name) hbody

/-- What two walks and the loose nodes put at the top level is distinct: the second walk begins with
subgraphs that the first did not expand. -/
theorem nodup_names_of_walks (hwritten : after.HasWritten g)
    (w₁ : Walk g limit [g.name] (g.children g.name) [] members between)
    (w₂ : Walk g limit path' tops between orphans after.expanded)
    (hsub : tops.Sublist g.subgraphs.keys) (htops : ∀ u ∈ tops, g.IsShown u ∧ u ∉ between)
    (hall : ∀ u, g.IsShown u → u ∈ after.expanded) :
    ((members ++ orphans).map Place.name ++ g.looseNodes after.written).Nodup := by
  have hexpanded := w₁.isShown_iff w₂ hall
  rw [List.map_append, w₁.map_name, w₂.map_name, List.nodup_append, List.nodup_append]
  refine ⟨⟨nodup_live (g.relations.nodup_children g.name),
    nodup_live (g.subgraphs.keys_nodup.sublist hsub), ?_⟩,
    g.nodes.keys_nodup.sublist List.filter_sublist, ?_⟩
  · rintro u hroot _ htop rfl
    obtain ⟨hshown, hnew⟩ := htops u (mem_live_iff.mp htop).1
    exact hnew (w₁.mem_of_mem_names (mem_live_iff.mp hroot).1 hshown).1
  · rintro n hn _ hlost rfl
    obtain ⟨hnode, hloose⟩ := (mem_looseNodes_iff hwritten hexpanded).mp hlost
    rcases List.mem_append.mp hn with hroot | htop
    · exact hloose g.name (Or.inl rfl) (mem_live_iff.mp hroot).1
    · exact (htops n (mem_live_iff.mp htop).1).1.not_isNode hnode

/-- The statements of a document before its edges are those of a layout, in which all live members
stand if orphans are written. -/
theorem exists_isLayout_of_toDocument (hg : g.Coherent) {doc : Document}
    (h : g.toDocument s = .ok doc) :
    ∃ (layout : List Place) (edges : List EdgeStmt),
      doc.stmts =
        (attrStmts g.name g.attrs).map .attr ++ Place.toStmts g layout ++ edges.map .edge ∧
      g.IsLayout layout ∧
      (s.emitOrphans = true →
        ∀ n, g.IsLive n → n ∈ (Place.flattenAll layout).map Place.name) := by
  obtain ⟨o, edges, ho, hedges, rfl⟩ := toDocument_ok_cases h
  cases hs : s.emitOrphans with
  | false =>
      obtain ⟨stmts, after, hroot, rfl⟩ := outline_ok_cases_of_no_orphans hs ho
      obtain ⟨members, w, rfl⟩ := exists_walk_of_rootStmts hroot
      have hroot : g.live (g.children g.name) <+: members.map Place.name :=
        w.map_name ▸ List.prefix_rfl
      have hnodup : (members.map Place.name).Nodup :=
        w.map_name ▸ nodup_live (g.relations.nodup_children g.name)
      refine ⟨members, edges, ?_, ⟨hroot, hnodup, w.fits⟩, fun h => by cases h⟩
      simp only [Outline.stmts, List.append_nil]
  | true =>
      obtain ⟨stmts, between, blocks, after, hroot, horphans, rfl⟩ :=
        outline_ok_cases_of_orphans hs ho
      obtain ⟨members, w₁, rfl⟩ := exists_walk_of_rootStmts hroot
      obtain ⟨tops, orphans, w₂, rfl, hsub, htops, hall⟩ :=
        exists_walk_of_orphanBlocks hg w₁.finished_root horphans
      have hwritten : after.HasWritten g :=
        (hasWritten_of_rootStmts hg hroot).orphanBlocks hg horphans
      refine ⟨members ++ orphans ++ (g.looseNodes after.written).map .node, edges, ?_,
        ⟨?_, ?_, ?_⟩, ?_⟩
      · simp only [Outline.stmts, Place.toStmts_append, hg.orphanNodes_eq, List.append_assoc]
      · rw [List.append_assoc, List.map_append, ← w₁.map_name]
        exact List.prefix_append _ _
      · have hnames : ((g.looseNodes after.written).map Place.node).map Place.name =
            g.looseNodes after.written := by
          rw [List.map_map]
          exact List.map_id _
        rw [List.map_append, hnames]
        exact nodup_names_of_walks hwritten w₁ w₂ hsub
          (fun u hu => ⟨(htops u hu).1, (htops u hu).2.1⟩) hall
      · rw [Place.flattenAll_append, Place.flattenAll_map_node, List.forall_mem_append]
        refine ⟨fits_of_walks w₁ w₂, ?_⟩
        rw [List.forall_mem_map]
        exact fun n hn => isNode_of_mem_looseNodes hn
      · intro _ n hn
        rw [Place.flattenAll_append, Place.flattenAll_map_node, List.map_append, List.mem_append]
        by_cases hloose : n ∈ g.looseNodes after.written
        · exact Or.inr (List.mem_map.mpr ⟨.node n, List.mem_map_of_mem hloose, rfl⟩)
        · exact Or.inl (mem_names_of_walks hwritten w₁ w₂ hall hn hloose)

/-- What is told of every statement of a document, at every level, but not of attributes and edges,
is told of the statements of its places. -/
theorem filterMap_flattenAll {pick : Stmt → Option String}
    (hstmts : doc.stmts =
      (attrStmts g.name g.attrs).map .attr ++ Place.toStmts g layout ++ edges.map .edge)
    (hattr : ∀ a, pick (.attr a) = none) (hedge : ∀ e, pick (.edge e) = none) :
    (Stmt.flattenAll doc.stmts).filterMap pick =
      (Place.flattenAll layout).filterMap fun place => pick (place.toStmt g) := by
  have hattrs : ∀ attrs : List AttrStmt,
      (Stmt.flattenAll (attrs.map .attr)).filterMap pick = [] := by
    intro attrs
    induction attrs with
    | nil => rfl
    | cons a rest ih => simp [Stmt.flattenAll, Stmt.flatten, hattr, ih]
  have hedges : (Stmt.flattenAll (edges.map .edge)).filterMap pick = [] := by
    clear hstmts
    induction edges with
    | nil => rfl
    | cons e rest ih => simp [Stmt.flattenAll, Stmt.flatten, hedge, ih]
  rw [hstmts, Stmt.flattenAll_append, Stmt.flattenAll_append, List.filterMap_append,
    List.filterMap_append, hattrs, hedges, Place.flattenAll_toStmts, List.filterMap_map,
    List.append_nil, List.nil_append]
  rfl

end Graph

end DotModel
