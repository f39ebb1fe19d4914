import DotModel.Proofs.Writing.Layout
import Mathlib.Algebra.GroupWithZero.Nat
import Mathlib.Algebra.Order.BigOperators.Group.Finset

/-!
# The size of a document

How many statements a document has, at every level.  A subgraph may be reached along exponentially
many paths, but only one of its blocks has a body, so every body is paid for once: its attributes by
those of the subgraph, and the statements directly in it by the pairs of the relation that have the
subgraph first.  The graph's own scope and the blocks at the top level are paid for apart, since a
graph may have the name of one of its subgraphs.  Nothing is asked of the graph: its names, indexes
and relations need not fit each other.
-/

namespace DotModel

/-! ## Counting statements -/

namespace Stmt

mutual

/-- The number of statements in a statement, at every level, itself and the attributes of blocks
included. -/
def size : Stmt → Nat
  | .attr _ | .node _ | .edge _ => 1
  | .subgraph _ attrs body => 1 + attrs.length + sizes body

/-- The number of statements in a body, at every level. -/
def sizes : List Stmt → Nat
  | [] => 0
  | s :: rest => size s + sizes rest

end

theorem sizes_append (stmts rest : List Stmt) :
    sizes (stmts ++ rest) = sizes stmts + sizes rest := by
  induction stmts with
  | nil => simp [sizes]
  | cons s stmts ih => rw [List.cons_append, sizes, sizes, ih, Nat.add_assoc]

theorem sizes_map_of_size_eq_one {α : Type} {f : α → Stmt} (h : ∀ a, (f a).size = 1)
    (as : List α) : sizes (as.map f) = as.length := by
  induction as with
  | nil => rfl
  | cons a rest ih => rw [List.map_cons, sizes, h, ih, List.length_cons, Nat.add_comm]

end Stmt

/-- The number of statements of a document, at every level. -/
def Document.size (doc : Document) : Nat := Stmt.sizes doc.stmts

/-! ## Sums over distinct keys -/

section Sums

variable {κ ν : Type} [DecidableEq κ]

/-- Distinct keys give no more than all keys of a map, if the others give nothing. -/
theorem OrdMap.sum_find?_le {ks : List κ} (m : OrdMap κ ν) (hnodup : ks.Nodup) (f : ν → Nat) :
    (ks.map fun k => ((m.find? k).map f).getD 0).sum ≤ (m.values.map f).sum := by
  have hkeys : (m.keys.map fun k => ((m.find? k).map f).getD 0) = m.values.map f := by
    rw [keys, values, List.map_map, List.map_map]
    apply List.map_congr_left
    intro e he
    have hfind : m.find? e.1 = some e.2 := find?_eq_some_iff.mpr he
    simp [hfind]
  rw [← hkeys, ← List.sum_toFinset _ hnodup, ← List.sum_toFinset _ m.keys_nodup]
  apply Finset.sum_le_sum_of_ne_zero
  intro k _ hne
  rw [List.mem_toFinset]
  by_contra hk
  exact hne (by simp [find?_eq_none_iff.mpr hk])

omit [DecidableEq κ] in
theorem Buckets.length_pairs (b : Buckets κ ν) :
    (Buckets.pairs b).length = (b.values.map fun values => values.toList.length).sum := by
  simp [Buckets.pairs, OrdMap.values, List.length_flatMap, Function.comp_def]

/-- The buckets of distinct keys hold no more than all pairs. -/
theorem Buckets.sum_length_bucket_le {ks : List κ} (b : Buckets κ ν) (hnodup : ks.Nodup) :
    (ks.map fun k => (b.bucket k).length).sum ≤ (Buckets.pairs b).length := by
  have hbucket : (fun k => (b.bucket k).length) =
      fun k => ((b.find? k).map fun values => values.toList.length).getD 0 := by
    funext k
    rw [Buckets.bucket]
    cases b.find? k <;> rfl
  rw [hbucket, b.length_pairs]
  exact b.sum_find?_le hnodup _

end Sums

/-! ## Bodies -/

namespace Place

/-- The subgraph whose body stands here. -/
def body? : Place → Option String
  | .body name _ => some name
  | .node _ | .mention _ => none

/-- The subgraphs that have a body in the places or within them, in the order of the document. -/
def bodies (places : List Place) : List String := (flattenAll places).filterMap body?

theorem bodies_append (places rest : List Place) :
    bodies (places ++ rest) = bodies places ++ bodies rest := by
  rw [bodies, flattenAll_append, List.filterMap_append]
  rfl

@[simp] theorem bodies_node (name : String) (rest : List Place) :
    bodies (.node name :: rest) = bodies rest := rfl

@[simp] theorem bodies_mention (name : String) (rest : List Place) :
    bodies (.mention name :: rest) = bodies rest := rfl

@[simp] theorem bodies_body (name : String) (inside rest : List Place) :
    bodies (.body name inside :: rest) = name :: (bodies inside ++ bodies rest) := by
  simp [bodies, flatten, body?]

end Place

namespace Graph

variable {g : Graph} {s : Settings} {limit room : Nat}
  {path names expanded expanded' : List String} {places : List Place} {stmts : List Stmt}
  {before after : Progress} {doc : Document}

/-- What the body of a subgraph adds to a document: its attributes and its live members. -/
def bodySize (g : Graph) (name : String) : Nat :=
  ((g.subgraph? name).map fun sub => sub.attrs.size).getD 0 + (g.live (g.children name)).length

theorem length_attrStmts_subgraph? (g : Graph) (name : String) :
    (((g.subgraph? name).map fun sub => attrStmts name sub.attrs).getD []).length =
      ((g.subgraph? name).map fun sub => sub.attrs.size).getD 0 := by
  cases g.subgraph? name with
  | none => rfl
  | some sub => simp [attrStmts, OrdMap.size]

/-- The bodies of distinct subgraphs come to no more than the attributes of all subgraphs and the
pairs of the relation. -/
theorem sum_bodySize_le {us : List String} (g : Graph) (hnodup : us.Nodup) :
    (us.map g.bodySize).sum ≤
      (g.subgraphs.values.map fun sub => sub.attrs.size).sum + g.relations.pairs.length := by
  have hattrs : (us.map fun u => ((g.subgraph? u).map fun sub => sub.attrs.size).getD 0).sum ≤
      (g.subgraphs.values.map fun sub => sub.attrs.size).sum :=
    g.subgraphs.sum_find?_le hnodup _
  have hmembers : (us.map fun u => (g.live (g.children u)).length).sum ≤
      (us.map fun u => (g.children u).length).sum :=
    List.sum_le_sum fun u _ => List.length_filter_le _ _
  have hpairs : (us.map fun u => (g.children u).length).sum ≤ g.relations.pairs.length :=
    g.relations.byParent.sum_length_bucket_le hnodup
  calc
    (us.map g.bodySize).sum =
        (us.map fun u => ((g.subgraph? u).map fun sub => sub.attrs.size).getD 0).sum +
          (us.map fun u => (g.live (g.children u)).length).sum := List.sum_map_add
    _ ≤ _ := Nat.add_le_add hattrs (hmembers.trans hpairs)

namespace Walk

/-- Each place of a walk has one statement, and those of all bodies come to that. -/
theorem sizes_toStmts (w : Walk g room path names expanded places expanded') :
    Stmt.sizes (Place.toStmts g places) =
      places.length + ((Place.bodies places).map g.bodySize).sum := by
  induction w with
  | nil => rfl
  | @node _ _ name _ _ _ _ _ _ ih =>
      have hone : ((Place.node name).toStmt g).size = 1 := rfl
      rw [Place.toStmts_cons, Stmt.sizes, hone, ih, Place.bodies_node, List.length_cons]
      omega
  | skip _ _ ih => exact ih
  | @mention _ _ name _ _ _ _ _ _ _ _ ih =>
      have hone : ((Place.mention name).toStmt g).size = 1 := rfl
      rw [Place.toStmts_cons, Stmt.sizes, hone, ih, Place.bodies_mention, List.length_cons]
      omega
  | @body _ _ name _ _ inside _ _ _ _ _ _ inner _ ihinner ihrest =>
      -- The members of the body count as a part of it, and not as places of the walk.
      have hblock : ((Place.body name inside).toStmt g).size =
          1 + g.bodySize name + ((Place.bodies inside).map g.bodySize).sum := by
        rw [Place.toStmt, Stmt.size, ihinner, inner.length_places, bodySize,
          length_attrStmts_subgraph?]
        omega
      rw [Place.toStmts_cons, Stmt.sizes, hblock, ihrest, Place.bodies_body, List.map_cons,
        List.map_append, List.sum_cons, List.sum_append, List.length_cons]
      omega

/-- After a walk those subgraphs are expanded that have a body in it, the last one first. -/
theorem expanded_eq (w : Walk g room path names expanded places expanded') :
    expanded' = (Place.bodies places).reverse ++ expanded := by
  induction w with
  | nil => rfl
  | node _ _ ih => exact ih
  | skip _ _ ih => exact ih
  | mention _ _ _ _ ih => exact ih
  | body _ _ _ _ _ ihinner ihrest =>
      rw [ihrest, ihinner, Place.bodies_body]
      simp

/-- No subgraph is expanded twice. -/
theorem nodup_expanded (w : Walk g room path names expanded places expanded')
    (hnodup : expanded.Nodup) : expanded'.Nodup := by
  induction w with
  | nil => exact hnodup
  | node _ _ ih => exact ih hnodup
  | skip _ _ ih => exact ih hnodup
  | mention _ _ _ _ ih => exact ih hnodup
  | body _ _ hnew _ _ ihinner ihrest =>
      exact ihrest (ihinner (List.nodup_cons.mpr ⟨hnew, hnodup⟩))

end Walk

/-! ## Orphans -/

theorem length_lt_of_block {stmt : Stmt} {name : String} (hnew : name ∉ before.expanded)
    (h : block g limit room path name before = .ok (stmt, after)) :
    before.expanded.length < after.expanded.length := by
  obtain ⟨-, ⟨hold, -, -⟩ | ⟨-, lower, body, -, hbody, -⟩⟩ := block_ok_cases h
  · exact absurd hold hnew
  · obtain ⟨inside, w, -⟩ := memberStmts_eq_ok_iff.mp hbody
    rw [w.expanded_eq, Progress.expand, List.length_append, List.length_cons]
    omega

/-- Each block of a round expands a subgraph that was not expanded. -/
theorem length_add_le_of_pendingBlocks {heldBack : List String → String → Bool}
    (h : g.pendingBlocks limit heldBack names before = .ok (stmts, after)) :
    stmts.length + before.expanded.length ≤ after.expanded.length := by
  induction names generalizing before stmts with
  | nil =>
      cases h
      exact Nat.le_of_eq (Nat.zero_add _)
  | cons name names ih =>
      rcases pendingBlocks_ok_cases h with
        ⟨hturn, top, between, rest, htop, hrest, rfl⟩ | ⟨-, hrest⟩
      · have hnew : name ∉ before.expanded :=
          (isPending_eq_true_iff.mp (Bool.and_eq_true_iff.mp hturn).1).1
        have hblock := length_lt_of_block hnew htop
        have hround := ih hrest
        rw [List.length_cons]
        omega
      · exact ih hrest

/-- The orphan blocks come from one walk, and there are no more of them than subgraphs that it
expands. -/
theorem exists_walk_and_length_le_of_orphanBlocks (hfin : g.Finished [] before.expanded)
    (h : g.orphanBlocks limit before = .ok (stmts, after)) :
    ∃ tops places, Walk g limit [] tops before.expanded places after.expanded ∧
      stmts = Place.toStmts g places ∧
      places.length + before.expanded.length ≤ after.expanded.length := by
  obtain ⟨first, between, second, hfirst, hsecond, rfl⟩ := orphanBlocks_ok_cases h
  have hlength₁ := length_add_le_of_pendingBlocks hfirst
  have hlength₂ := length_add_le_of_pendingBlocks hsecond
  obtain ⟨tops₁, places₁, w₁, rfl, -⟩ := exists_walk_of_pendingBlocks hfin hfirst
  obtain ⟨tops₂, places₂, w₂, rfl, -⟩ := exists_walk_of_pendingBlocks (w₁.finished hfin) hsecond
  refine ⟨tops₁ ++ tops₂, places₁ ++ places₂, w₁.append w₂, (Place.toStmts_append g _ _).symm, ?_⟩
  rw [Place.toStmts_eq_map, List.length_map] at hlength₁ hlength₂
  rw [List.length_append]
  omega

theorem exists_orphanNodes_eq (g : Graph) (written : List String) :
    ∃ loose : List Member,
      loose.Sublist g.nodes.values ∧ g.orphanNodes written = loose.map nodeStmt :=
  ⟨_, List.filter_sublist, rfl⟩

/-! ## Layouts -/

/-- A layout in which everything fits the graph and no subgraph has two bodies, so that its
statements are those of the bodies, each once, and a few at the top level. -/
structure ExpandsOnce (g : Graph) (layout : List Place) : Prop where
  fits : ∀ place ∈ Place.flattenAll layout, place.Fits g
  nodup : (Place.bodies layout).Nodup
  sizes : Stmt.sizes (Place.toStmts g layout) =
    layout.length + ((Place.bodies layout).map g.bodySize).sum
  length_le : layout.length ≤ (g.children g.name).length + g.subgraphs.size

/-- The walk along the graph's own scope and one that expands a subgraph for each of its places. -/
theorem expandsOnce_of_walks {room' : Nat} {path' tops between : List String}
    {members orphans : List Place}
    (w₁ : Walk g room path (g.children g.name) [] members between)
    (w₂ : Walk g room' path' tops between orphans expanded)
    (hlength : orphans.length + between.length ≤ expanded.length) :
    g.ExpandsOnce (members ++ orphans) := by
  have hexpanded : expanded.Nodup := w₂.nodup_expanded (w₁.nodup_expanded List.nodup_nil)
  have hshown : ∀ u ∈ expanded, g.IsShown u :=
    w₂.forall_isShown (w₁.forall_isShown (List.forall_mem_nil _))
  refine ⟨fits_of_walks w₁ w₂, ?_, ?_, ?_⟩
  · rw [w₂.expanded_eq, w₁.expanded_eq, List.append_nil, ← List.reverse_append,
      ← Place.bodies_append, List.nodup_reverse] at hexpanded
    exact hexpanded
  · rw [Place.toStmts_append, Stmt.sizes_append, w₁.sizes_toStmts, w₂.sizes_toStmts,
      Place.bodies_append, List.map_append, List.sum_append, List.length_append]
    omega
  · have hroot : members.length ≤ (g.children g.name).length := by
      rw [w₁.length_places]
      exact List.length_filter_le _ _
    have hsize : expanded.length ≤ g.subgraphs.size := length_le_size_subgraphs hexpanded hshown
    rw [List.length_append]
    omega

/-- What stands before the edges comes from such a layout, besides the attributes of the graph and
some of its nodes. -/
theorem exists_expandsOnce_of_outline {o : Outline} (h : g.outline s = .ok o) :
    ∃ (layout : List Place) (loose : List Member),
      o.stmts = (attrStmts g.name g.attrs).map .attr ++ Place.toStmts g layout ++
        loose.map nodeStmt ∧
      g.ExpandsOnce layout ∧ loose.Sublist g.nodes.values := by
  cases hs : s.emitOrphans with
  | false =>
      obtain ⟨stmts, after, hroot, rfl⟩ := outline_ok_cases_of_no_orphans hs h
      obtain ⟨members, w, rfl⟩ := exists_walk_of_rootStmts hroot
      have honce : g.ExpandsOnce (members ++ []) :=
        expandsOnce_of_walks w (@Walk.nil g 0 [] after.expanded) (Nat.le_of_eq (Nat.zero_add _))
      rw [List.append_nil] at honce
      refine ⟨members, [], ?_, honce, List.nil_sublist _⟩
      simp only [Outline.stmts, List.append_nil, List.map_nil]
  | true =>
      obtain ⟨stmts, between, blocks, after, hroot, horphans, rfl⟩ :=
        outline_ok_cases_of_orphans hs h
      obtain ⟨members, w₁, rfl⟩ := exists_walk_of_rootStmts hroot
      obtain ⟨tops, orphans, w₂, rfl, hlength⟩ :=
        exists_walk_and_length_le_of_orphanBlocks w₁.finished_root horphans
      obtain ⟨loose, hloose, hnodes⟩ := g.exists_orphanNodes_eq after.written
      refine ⟨members ++ orphans, loose, ?_, expandsOnce_of_walks w₁ w₂ hlength, hloose⟩
      simp only [Outline.stmts, hnodes, Place.toStmts_append, List.append_assoc]

/-! ## Documents -/

/-- A document has no more statements, at every level, than the graph has attributes, attributes of
subgraphs, pairs of the relation, members in its own scope, subgraphs, nodes and edges.  Its blocks
are those of a layout in which no subgraph has two bodies. -/
theorem size_le_of_toDocument (h : g.toDocument s = .ok doc) :
    doc.size ≤
        g.attrs.size + (g.subgraphs.values.map fun sub => sub.attrs.size).sum +
          g.relations.pairs.length + (g.children g.name).length + g.subgraphs.size +
          g.nodes.size + g.edges.size ∧
      ∃ (layout : List Place) (loose : List Member) (edges : List EdgeStmt),
        doc.stmts = (attrStmts g.name g.attrs).map .attr ++ Place.toStmts g layout ++
          loose.map nodeStmt ++ edges.map .edge ∧
        (∀ place ∈ Place.flattenAll layout, place.Fits g) ∧ (Place.bodies layout).Nodup := by
  obtain ⟨o, edges, ho, hedges, rfl⟩ := toDocument_ok_cases h
  obtain ⟨layout, loose, hstmts, honce, hloose⟩ := exists_expandsOnce_of_outline ho
  refine ⟨?_, layout, loose, edges, by rw [hstmts], honce.fits, honce.nodup⟩
  have hattrs : (attrStmts g.name g.attrs).length = g.attrs.size := List.length_map _
  have hnodes : loose.length ≤ g.nodes.size := by
    have hvalues := hloose.length_le
    rwa [OrdMap.values, List.length_map] at hvalues
  have hedgeCount : edges.length = g.edges.size := length_edgeStmts hedges
  have hlength := honce.length_le
  have hbodies := g.sum_bodySize_le honce.nodup
  rw [Document.size, hstmts, Stmt.sizes_append, Stmt.sizes_append, Stmt.sizes_append,
    Stmt.sizes_map_of_size_eq_one fun _ => rfl, Stmt.sizes_map_of_size_eq_one fun _ => rfl,
    Stmt.sizes_map_of_size_eq_one fun _ => rfl, hattrs, honce.sizes, hedgeCount]
  omega

/-- A graph that took the name of its subgraph `a`.  What was its own scope is gone, so `a` and `b`
are orphans, and `a` is the graph's own scope besides.  Both hold `x`. -/
def renamedOver : Graph :=
  empty.performAll [.setName "G", .addSubgraph "G" "a" ∅, .addSubgraph "G" "b" ∅,
    .addSubgraph "a" "x" (.ofList [("color", "red")]), .addSubgraph "b" "x" ∅,
    .addNode "x" "n" ∅, .addNode "a" "m" ∅, .setName "a", .addEdge (.between "n" "m" false ∅)]

/-- There `x` has a block in three places, one of which has the body. -/
theorem renamedOver_size :
    ∃ doc, renamedOver.toDocument {} = .ok doc ∧ doc.size = 10 ∧ doc.size ≤ 15 := by
  obtain ⟨doc, hdoc⟩ := exists_eq_ok_of_isOk
    (show (renamedOver.toDocument {}).isOk = true by decide +kernel)
  have hmap : (renamedOver.toDocument {}).map Document.size = .ok 10 := by decide +kernel
  have hsize : doc.size = 10 := by
    rw [hdoc] at hmap
    exact Except.ok.inj hmap
  have hbound := (size_le_of_toDocument hdoc).1
  exact ⟨doc, hdoc, hsize, hbound⟩

end Graph

end DotModel
