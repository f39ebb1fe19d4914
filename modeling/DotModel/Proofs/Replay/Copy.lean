import DotModel.Proofs.Replay.Growth

/-!
# Copies

Reading a written document gives a *copy* of the graph.  All names are safe names in the copy, and
hidden subgraphs, relations of members that are gone, and those in scopes that are not shown have
vanished.  The loose members have become members of the graph's own scope, after the others.  What
is left has its attributes and stands in its scope in the old order, if no two names are written
alike.
-/

namespace DotModel

/-! ## Declarations in places -/

namespace Place

variable {g : Graph} {places : List Place} {d : String × Attributes}

theorem mem_nodeDecls_iff :
    d ∈ nodeDecls g places ↔ ∃ n, .node n ∈ flattenAll places ∧
      d = (safeName n, ((g.node? n).map Member.attrs).getD ∅) := by
  rw [nodeDecls, List.mem_filterMap]
  constructor
  · rintro ⟨place, hplace, hd⟩
    cases place with
    | node n =>
        cases hd
        exact ⟨n, hplace, rfl⟩
    | body n inside => cases hd
    | mention n => cases hd
  · rintro ⟨n, hn, rfl⟩
    exact ⟨.node n, hn, rfl⟩

theorem mem_blockDecls_iff :
    d ∈ blockDecls g places ↔ ∃ u,
      (∃ inside, .body u inside ∈ flattenAll places ∧
        d = (safeName u, ((g.subgraph? u).map Member.attrs).getD ∅)) ∨
      .mention u ∈ flattenAll places ∧ d = (safeName u, ∅) := by
  rw [blockDecls, List.mem_filterMap]
  constructor
  · rintro ⟨place, hplace, hd⟩
    cases place with
    | node n => cases hd
    | body u inside =>
        cases hd
        exact ⟨u, Or.inl ⟨inside, hplace, rfl⟩⟩
    | mention u =>
        cases hd
        exact ⟨u, Or.inr ⟨hplace, rfl⟩⟩
  · rintro ⟨u, ⟨inside, hu, rfl⟩ | ⟨hu, rfl⟩⟩
    · exact ⟨.body u inside, hu, rfl⟩
    · exact ⟨.mention u, hu, rfl⟩

theorem mem_blocks_iff {u : String} {b : Place} :
    b ∈ blocks u places ↔ b ∈ flattenAll places ∧ b.isBlockOf u = true :=
  List.mem_filter

end Place

namespace Graph

variable {g g' : Graph} {room limit : Nat} {path names expanded expanded' lost : List String}
  {places : List Place} {edges : List EdgeStmt} {name : String}

/-- The names that occur in a graph: its own, those of its members, and those of the ends of its
edges. -/
def IsNamed (g : Graph) (name : String) : Prop :=
  name = g.name ∨ g.IsLive name ∨ ∃ e ∈ g.edges.toList, name = e.src ∨ name = e.dst

/-- The names that occur in a graph, one after the other. -/
def allNames (g : Graph) : List String :=
  g.name :: (g.nodes.keys ++ g.subgraphs.keys) ++ g.edges.toList.flatMap fun e => [e.src, e.dst]

theorem mem_allNames_iff : name ∈ g.allNames ↔ g.IsNamed name := by
  simp only [allNames, List.mem_append, List.mem_cons, List.mem_flatMap, List.not_mem_nil, or_false,
    IsNamed, IsLive, isNode_eq_true_iff, isSubgraph_eq_true_iff, OrdMap.mem_def, or_assoc]

/-- No two names of the graph are written alike. -/
def IsSafelyNamed (g : Graph) : Prop := Set.InjOn safeName {n | g.IsNamed n}

instance : Decidable g.IsSafelyNamed :=
  decidable_of_iff (∀ m ∈ g.allNames, ∀ n ∈ g.allNames, safeName m = safeName n → m = n) <| by
    simp only [mem_allNames_iff]
    constructor
    · exact fun h m hm n hn heq => h m hm n hn heq
    · exact fun h m hm n hn heq => h hm hn heq

theorem IsLive.isNamed (h : g.IsLive name) : g.IsNamed name := Or.inr (Or.inl h)

theorem IsShownScope.isNamed (h : g.IsShownScope name) : g.IsNamed name := by
  rcases h with hroot | hshown
  · exact Or.inl hroot
  · exact hshown.isLive.isNamed

theorem IsSafelyNamed.eq (h : g.IsSafelyNamed) {m n : String} (hm : g.IsNamed m)
    (hn : g.IsNamed n) (heq : safeName m = safeName n) : m = n :=
  h hm hn heq

theorem Walk.exists_place_of_mem_nestings
    (w : Walk g room path names expanded places expanded') {scope p : String}
    (h : (p, name) ∈ Place.nestingsAll scope places) :
    ∃ place ∈ Place.flattenAll places, place.name = name := by
  induction w generalizing scope with
  | nil => cases h
  | node _ _ ih =>
      rcases List.mem_cons.mp h with heq | h
      · cases heq
        exact ⟨_, List.mem_cons_self, rfl⟩
      · obtain ⟨place, hplace, hname⟩ := ih h
        exact ⟨place, List.mem_cons_of_mem _ hplace, hname⟩
  | skip _ _ ih => exact ih h
  | mention _ _ _ _ ih =>
      rcases List.mem_cons.mp h with heq | h
      · cases heq
        exact ⟨_, List.mem_cons_self, rfl⟩
      · obtain ⟨place, hplace, hname⟩ := ih h
        exact ⟨place, List.mem_cons_of_mem _ hplace, hname⟩
  | body _ _ _ _ _ ihinner ihrest =>
      rcases List.mem_append.mp h with h | h
      · rcases List.mem_cons.mp h with heq | h
        · cases heq
          exact ⟨_, List.mem_cons_self, rfl⟩
        · obtain ⟨place, hplace, hname⟩ := ihinner h
          refine ⟨place, ?_, hname⟩
          exact List.mem_append_left _ (List.mem_cons_of_mem _ hplace)
      · obtain ⟨place, hplace, hname⟩ := ihrest h
        exact ⟨place, List.mem_append_right _ hplace, hname⟩

namespace Course

theorem isShown_of_mem_flatten (c : Course g limit lost places expanded) {b : Place}
    (hb : b ∈ Place.flattenAll places) (hname : b.isBlockOf name = true) : g.IsShown name := by
  rw [← c.mem_expanded_iff]
  by_contra hnew
  have hmem : b ∈ Place.blocks name places := Place.mem_blocks_iff.mpr ⟨hb, hname⟩
  rw [c.walk.blocks_eq_nil hnew] at hmem
  cases hmem

/-- Every live member stands in some scope. -/
theorem exists_mem_nestings (c : Course g limit lost places expanded) (h : g.IsLive name) :
    ∃ p, g.IsShownScope p ∧ (p, name) ∈ Place.nestingsAll g.name places := by
  by_cases hheld : ∃ p, g.IsShownScope p ∧ name ∈ g.children p
  · obtain ⟨p, hp, hmem⟩ := hheld
    exact ⟨p, hp, c.mem_nestings_iff.mpr ⟨h, Or.inl ⟨hp, hmem⟩⟩⟩
  · have hloose : g.IsLoose name := fun p hp hmem => hheld ⟨p, hp, hmem⟩
    exact ⟨g.name, Or.inl rfl, c.mem_nestings_iff.mpr ⟨h, Or.inr ⟨rfl, hloose⟩⟩⟩

theorem node_mem_flatten (c : Course g limit lost places expanded) (h : g.isNode name = true) :
    .node name ∈ Place.flattenAll places := by
  obtain ⟨p, -, hp⟩ := c.exists_mem_nestings (Or.inl h)
  obtain ⟨place, hplace, hname⟩ := c.walk.exists_place_of_mem_nestings hp
  have hblock : place.isBlockOf name = false := by
    rw [← Bool.not_eq_true]
    intro hb
    exact (c.isShown_of_mem_flatten hplace hb).not_isNode h
  cases place with
  | node n =>
      cases hname
      exact hplace
  | body n inside => simp [Place.isBlockOf, ← hname, Place.name] at hblock
  | mention n => simp [Place.isBlockOf, ← hname, Place.name] at hblock

end Course

/-- One graph is what reading a document of another gives. -/
structure IsCopy (g : Graph) (lost : List String) (edges : List EdgeStmt) (g' : Graph) : Prop where
  coherent : g'.Coherent
  name : g'.name = safeName g.name
  directed : g'.directed = g.directed
  strict : g'.strict = g.strict
  attrs : g'.attrs = g.attrs
  node?_safeName : ∀ {n m}, g.node? n = some m → g'.node? (safeName n) = some ⟨safeName n, m.attrs⟩
  exists_isNode : ∀ {x}, g'.isNode x = true → ∃ n, g.isNode n = true ∧ x = safeName n
  subgraph?_safeName : ∀ {u m}, g.IsShown u → g.subgraph? u = some m →
    g'.subgraph? (safeName u) = some ⟨safeName u, m.attrs⟩
  exists_isShown : ∀ {x}, g'.isSubgraph x = true → ∃ u, g.IsShown u ∧ x = safeName u
  children_root : g'.children (safeName g.name) =
    (g.live (g.children g.name) ++ lost).map safeName
  children_safeName : ∀ {u}, g.IsShown u →
    g'.children (safeName u) = (g.live (g.children u)).map safeName
  exists_isShownScope : ∀ {x c}, c ∈ g'.children x → ∃ p, g.IsShownScope p ∧ x = safeName p
  edges : g'.edges.toList = edges.map EdgeStmt.toEdge

/-! ## Reading gives a copy -/

namespace Course

theorem find?_nodeDecls (c : Course g limit lost places expanded) (hsafe : g.IsSafelyNamed)
    {n : String} {m : Member} (hm : g.node? n = some m) :
    (Members.declareAll ∅ (Place.nodeDecls g places)).find? (safeName n) =
      some ⟨safeName n, m.attrs⟩ := by
  have hnode : g.isNode n = true := isNode_of_node? hm
  have hdecl : ((g.node? n).map Member.attrs).getD ∅ = m.attrs := Member.getD_attrs hm
  apply Members.find?_declareAll_empty
  · intro a ha
    obtain ⟨n', hn', heq⟩ := Place.mem_nodeDecls_iff.mp ha
    obtain ⟨hname, rfl⟩ := Prod.mk.inj heq
    have hlive : g.IsLive n := Or.inl hnode
    have hlive' : g.IsLive n' := Or.inl (c.walk.isNode_of_mem_flatten hn')
    have hsame : n = n' := hsafe.eq hlive.isNamed hlive'.isNamed hname
    exact Or.inl (hsame ▸ hdecl)
  · exact Place.mem_nodeDecls_iff.mpr ⟨n, c.node_mem_flatten hnode, by rw [hdecl]⟩

theorem find?_blockDecls (c : Course g limit lost places expanded) (hsafe : g.IsSafelyNamed)
    {u : String} {m : Member} (hu : g.IsShown u) (hm : g.subgraph? u = some m) :
    (Members.declareAll ∅ (Place.blockDecls g places)).find? (safeName u) =
      some ⟨safeName u, m.attrs⟩ := by
  have hdecl : ((g.subgraph? u).map Member.attrs).getD ∅ = m.attrs := Member.getD_attrs hm
  apply Members.find?_declareAll_empty
  -- A mention declares no attributes, whether it is read before the body or after it.
  · intro a ha
    obtain ⟨u', ⟨inside, hu', heq⟩ | ⟨hu', heq⟩⟩ := Place.mem_blockDecls_iff.mp ha
    · obtain ⟨hname, rfl⟩ := Prod.mk.inj heq
      have hshown' : g.IsShown u' := c.isShown_of_mem_flatten hu' (beq_self_eq_true u')
      have hsame : u = u' := hsafe.eq hu.isLive.isNamed hshown'.isLive.isNamed hname
      exact Or.inl (hsame ▸ hdecl)
    · exact Or.inr (Prod.mk.inj heq).2
  · obtain ⟨inside, later, hblocks, -, -⟩ :=
      c.walk.exists_blocks_eq_cons List.not_mem_nil (c.complete u hu)
    have hmem : .body u inside ∈ Place.blocks u places := by
      rw [hblocks]
      exact List.mem_cons_self
    have hflat := (Place.mem_blocks_iff.mp hmem).1
    exact Place.mem_blockDecls_iff.mpr ⟨u, Or.inl ⟨inside, hflat, by rw [hdecl]⟩⟩

theorem children_rebuilt (c : Course g limit lost places expanded) (hsafe : g.IsSafelyNamed)
    (edges : List EdgeStmt) (x : String) :
    (g.rebuilt places edges).children x =
      partners x ((Place.nestingsAll g.name places).map safePair) := by
  have hinj : Set.InjOn safeName {n | n = g.name ∨ g.IsLive n} := by
    refine Set.InjOn.mono ?_ hsafe
    rintro n (hroot | hlive)
    · exact Or.inl hroot
    · exact hlive.isNamed
  exact Relations.children_addAll (c.nodup_safe_nestings hinj) (fun _ _ => List.not_mem_nil) x

theorem isShownScope_of_mem_nestings (c : Course g limit lost places expanded)
    {e : String × String} (he : e ∈ Place.nestingsAll g.name places) : g.IsShownScope e.1 := by
  obtain ⟨-, ⟨hscope, -⟩ | ⟨hroot, -⟩⟩ := c.mem_nestings_iff.mp he
  · exact hscope
  · exact Or.inl hroot

theorem partners_safe_nestings (c : Course g limit lost places expanded)
    (hsafe : g.IsSafelyNamed) {p : String} (hp : g.IsNamed p) :
    partners (safeName p) ((Place.nestingsAll g.name places).map safePair) =
      (partners p (Place.nestingsAll g.name places)).map safeName := by
  refine partners_map safeName safeName ?_
  intro e he heq
  exact hsafe.eq (c.isShownScope_of_mem_nestings he).isNamed hp heq

theorem isCopy (c : Course g limit lost places expanded) (hsafe : g.IsSafelyNamed)
    (hname : ¬g.IsShown g.name) (edges : List EdgeStmt) :
    g.IsCopy lost edges (g.rebuilt places edges) where
  coherent := by
    refine ⟨?_, ?_, ?_⟩
    · exact coherent_empty.nodes.declareAll _
    · exact coherent_empty.subgraphs.declareAll _
    · exact coherent_empty.relations.addAll _
  name := name_toGraph_header g
  directed := rfl
  strict := rfl
  attrs := rfl
  node?_safeName := c.find?_nodeDecls hsafe
  exists_isNode := by
    intro x hx
    rcases Members.mem_declareAll.mp (isNode_eq_true_iff.mp hx) with hdecl | hempty
    · obtain ⟨d, hd, rfl⟩ := List.mem_map.mp hdecl
      obtain ⟨n, hn, rfl⟩ := Place.mem_nodeDecls_iff.mp hd
      exact ⟨n, c.walk.isNode_of_mem_flatten hn, rfl⟩
    · exact absurd hempty (OrdMap.not_mem_empty x)
  subgraph?_safeName := c.find?_blockDecls hsafe
  exists_isShown := by
    intro x hx
    rcases Members.mem_declareAll.mp (isSubgraph_eq_true_iff.mp hx) with hdecl | hempty
    · obtain ⟨d, hd, rfl⟩ := List.mem_map.mp hdecl
      obtain ⟨u, ⟨inside, hu, rfl⟩ | ⟨hu, rfl⟩⟩ := Place.mem_blockDecls_iff.mp hd
      · exact ⟨u, c.isShown_of_mem_flatten hu (beq_self_eq_true u), rfl⟩
      · exact ⟨u, c.isShown_of_mem_flatten hu (beq_self_eq_true u), rfl⟩
    · exact absurd hempty (OrdMap.not_mem_empty x)
  children_root := by
    have hroot : g.IsNamed g.name := Or.inl rfl
    rw [c.children_rebuilt hsafe, c.partners_safe_nestings hsafe hroot, c.partners_nestings,
      if_pos rfl]
  children_safeName := by
    intro u hu
    have hne : u ≠ g.name := fun heq => hname (heq ▸ hu)
    rw [c.children_rebuilt hsafe, c.partners_safe_nestings hsafe hu.isLive.isNamed,
      c.partners_nestings, if_neg hne, if_pos hu]
  exists_isShownScope := by
    intro x n hn
    rw [c.children_rebuilt hsafe, mem_partners_iff] at hn
    obtain ⟨e, he, heq⟩ := List.mem_map.mp hn
    exact ⟨e.1, c.isShownScope_of_mem_nestings he, (Prod.mk.inj heq).1.symm⟩
  edges := Edges.toList_addMany ∅ _

/-- Reading a written document succeeds, and gives a copy. -/
theorem exists_isCopy (hg : g.Coherent) (c : Course g limit lost places expanded)
    (hsafe : g.IsSafelyNamed) (hname : ¬g.IsShown g.name) (edges : List EdgeStmt) :
    ∃ g', Document.replay ⟨g.header,
        (attrStmts g.name g.attrs).map .attr ++ Place.toStmts g places ++ edges.map .edge⟩ =
      .ok g' ∧ g.IsCopy lost edges g' := by
  have hroot : ∀ u, g.IsShown u → safeName g.name ≠ safeName u := by
    intro u hu heq
    have hsame : g.name = u := hsafe.eq (Or.inl rfl) hu.isLive.isNamed heq
    exact hname (hsame ▸ hu)
  exact ⟨_, c.walk.replay_document hg hroot edges, c.isCopy hsafe hname edges⟩

end Course

end Graph

end DotModel
