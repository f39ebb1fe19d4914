import DotModel.Proofs.Writing.Orphans

/-!
# Written nodes

A writing notes the nodes that it declares.  After the graph's own scope, and again after each block
at the top level, these are the nodes that this scope and the expanded subgraphs have as members:
when such a block ends, the members of every subgraph in it have been written.
-/

namespace DotModel.Graph

variable {g : Graph} {limit room : Nat} {path names expanded expanded' : List String}
  {name : String} {places : List Place} {before after : Progress}

/-! ## Along a walk -/

theorem Coherent.name_of_node? (hg : g.Coherent) {m : Member} (hm : g.node? name = some m) :
    m.name = name :=
  hg.nodes name m hm

theorem Coherent.written_node (hg : g.Coherent) (hnode : g.isNode name = true) :
    Place.written g (.node name) = [name] := by
  obtain ⟨m, hm⟩ := exists_node?_of_isNode hnode
  rw [Place.written, hm, Option.getD_some, hg.name_of_node? hm]

/-- What a body and the walk behind it expand is the subgraph itself, what is expanded inside of it,
and what is expanded later. -/
theorem exists_new_body_iff {between : List String} {p : String → Prop}
    (hinner : name :: expanded ⊆ between) (hrest : between ⊆ expanded') (hnew : name ∉ expanded) :
    (∃ scope ∈ expanded', scope ∉ expanded ∧ p scope) ↔
      p name ∨ (∃ scope ∈ between, scope ∉ name :: expanded ∧ p scope) ∨
        ∃ scope ∈ expanded', scope ∉ between ∧ p scope := by
  constructor
  · rintro ⟨scope, hscope, hold, hp⟩
    by_cases hbetween : scope ∈ between
    · by_cases heq : scope = name
      · exact Or.inl (heq ▸ hp)
      · have hcons : scope ∉ name :: expanded := by simp [heq, hold]
        exact Or.inr (Or.inl ⟨scope, hbetween, hcons, hp⟩)
    · exact Or.inr (Or.inr ⟨scope, hscope, hbetween, hp⟩)
  · rintro (hp | ⟨scope, hscope, hcons, hp⟩ | ⟨scope, hscope, hbetween, hp⟩)
    · exact ⟨name, hrest (hinner List.mem_cons_self), hnew, hp⟩
    · exact ⟨scope, hrest hscope, fun hold => hcons (List.mem_cons_of_mem name hold), hp⟩
    · have hold : scope ∉ expanded := fun h => hbetween (hinner (List.mem_cons_of_mem name h))
      exact ⟨scope, hscope, hold, hp⟩

/-- A walk has written the nodes on its list and those of the subgraphs that it has expanded. -/
theorem Walk.mem_writtenAll_iff (w : Walk g room path names expanded places expanded')
    (hg : g.Coherent) {n : String} :
    n ∈ Place.writtenAll g places ↔ g.isNode n = true ∧
      (n ∈ names ∨ ∃ scope ∈ expanded', scope ∉ expanded ∧ n ∈ g.children scope) := by
  induction w with
  | nil =>
      constructor
      · exact fun hn => absurd hn List.not_mem_nil
      · rintro ⟨-, hn | ⟨scope, hscope, hbefore, -⟩⟩
        · exact absurd hn List.not_mem_nil
        · exact absurd hscope hbefore
  | @node room path name names expanded places expanded' hnode _ ih =>
      rw [Place.writtenAll_cons, hg.written_node hnode, List.mem_append, ih, List.mem_singleton,
        List.mem_cons]
      constructor
      · rintro (⟨hn, hnames | hheld⟩ | rfl)
        · exact ⟨hn, Or.inl (Or.inr hnames)⟩
        · exact ⟨hn, Or.inr hheld⟩
        · exact ⟨hnode, Or.inl (Or.inl rfl)⟩
      · rintro ⟨hn, (rfl | hnames) | hheld⟩
        · exact Or.inr rfl
        · exact Or.inl ⟨hn, Or.inl hnames⟩
        · exact Or.inl ⟨hn, Or.inr hheld⟩
  | skip hlive _ ih =>
      rw [ih, List.mem_cons]
      refine and_congr_right fun hn => or_congr_left (or_iff_right ?_).symm
      exact fun heq => hlive (heq ▸ Or.inl hn)
  | mention hshown _ _ _ ih =>
      rw [Place.writtenAll_cons, Place.written, List.append_nil, ih, List.mem_cons]
      refine and_congr_right fun hn => or_congr_left (or_iff_right ?_).symm
      exact fun heq => hshown.not_isNode (heq ▸ hn)
  | @body room path name names expanded inside between places expanded' hshown _ hnew inner rest
      ihinner ihrest =>
      have hnotNode : g.isNode n = true → n ≠ name := fun hn heq => hshown.not_isNode (heq ▸ hn)
      rw [Place.writtenAll_cons, Place.written, List.mem_append, ihrest, ihinner, List.mem_cons,
        exists_new_body_iff inner.subset rest.subset hnew]
      constructor
      · rintro (⟨hn, hnames | hlater⟩ | ⟨hn, hchild | hinside⟩)
        · exact ⟨hn, Or.inl (Or.inr hnames)⟩
        · exact ⟨hn, Or.inr (Or.inr (Or.inr hlater))⟩
        · exact ⟨hn, Or.inr (Or.inl hchild)⟩
        · exact ⟨hn, Or.inr (Or.inr (Or.inl hinside))⟩
      · rintro ⟨hn, (heq | hnames) | hchild | hinside | hlater⟩
        · exact absurd heq (hnotNode hn)
        · exact Or.inl ⟨hn, Or.inl hnames⟩
        · exact Or.inr ⟨hn, Or.inl hchild⟩
        · exact Or.inr ⟨hn, Or.inr hinside⟩
        · exact Or.inl ⟨hn, Or.inr hlater⟩

/-! ## In a writing -/

/-- What is written are the nodes among the members of the graph's own scope and of the expanded
subgraphs. -/
def Progress.HasWritten (p : Progress) (g : Graph) : Prop :=
  ∀ n, n ∈ p.written ↔ g.isNode n = true ∧
    ∃ scope, (scope = g.name ∨ scope ∈ p.expanded) ∧ n ∈ g.children scope

theorem hasWritten_of_rootStmts {stmts : List Stmt} (hg : g.Coherent)
    (h : g.rootStmts limit = .ok (stmts, after)) : after.HasWritten g := by
  obtain ⟨places, w, -, hwritten⟩ := memberStmts_eq_ok_iff.mp h
  intro n
  rw [hwritten, List.append_nil, w.mem_writtenAll_iff hg]
  refine and_congr_right fun _ => ?_
  constructor
  · rintro (hroot | ⟨scope, hscope, -, hchild⟩)
    · exact ⟨g.name, Or.inl rfl, hroot⟩
    · exact ⟨scope, Or.inr hscope, hchild⟩
  · rintro ⟨scope, rfl | hscope, hchild⟩
    · exact Or.inl hchild
    · exact Or.inr ⟨scope, hscope, List.not_mem_nil, hchild⟩

namespace Progress.HasWritten

theorem block {stmt : Stmt} (hwritten : before.HasWritten g) (hg : g.Coherent)
    (hshown : g.IsShown name) (h : Graph.block g limit room path name before = .ok (stmt, after)) :
    after.HasWritten g := by
  obtain ⟨place, w, -, hplace⟩ := exists_walk_of_block hshown h
  have hall : after.written = Place.writtenAll g [place] ++ before.written := hplace
  intro n
  rw [hall, List.mem_append, w.mem_writtenAll_iff hg, hwritten n, ← and_or_left]
  refine and_congr_right fun hn => ?_
  constructor
  · rintro ((hname | ⟨scope, hscope, -, hchild⟩) | ⟨scope, hscope, hchild⟩)
    · rw [List.mem_singleton.mp hname] at hn
      exact absurd hn (by simp [hshown.not_isNode])
    · exact ⟨scope, Or.inr hscope, hchild⟩
    · exact ⟨scope, hscope.imp_right fun hold => w.subset hold, hchild⟩
  · rintro ⟨scope, hscope, hchild⟩
    by_cases hold : scope = g.name ∨ scope ∈ before.expanded
    · exact Or.inr ⟨scope, hold, hchild⟩
    · rw [not_or] at hold
      exact Or.inl (Or.inr ⟨scope, hscope.resolve_left hold.1, hold.2, hchild⟩)

theorem pendingBlocks {heldBack : List String → String → Bool} {stmts : List Stmt}
    (hwritten : before.HasWritten g) (hg : g.Coherent)
    (h : g.pendingBlocks limit heldBack names before = .ok (stmts, after)) :
    after.HasWritten g := by
  induction names generalizing before stmts with
  | nil =>
      cases h
      exact hwritten
  | cons name names ih =>
      rcases pendingBlocks_ok_cases h with ⟨hturn, top, between, rest, htop, hrest, -⟩ | ⟨-, hrest⟩
      · exact ih (hwritten.block hg (isShown_of_turn hturn) htop) hrest
      · exact ih hwritten hrest

theorem orphanBlocks {stmts : List Stmt} (hwritten : before.HasWritten g) (hg : g.Coherent)
    (h : g.orphanBlocks limit before = .ok (stmts, after)) : after.HasWritten g := by
  obtain ⟨first, between, second, hfirst, hsecond, -⟩ := orphanBlocks_ok_cases h
  exact (hwritten.pendingBlocks hg hfirst).pendingBlocks hg hsecond

end Progress.HasWritten

end DotModel.Graph
