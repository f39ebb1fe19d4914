import DotModel.Proofs.Writing.Placement

/-!
# What writing sees of the relations

Two relations agree on a graph if they give each shown scope the same live members in the same
order.  Writing sees no more of the relations than this: with relations that agree, a graph gives
the same document or is refused with the same error.  The scopes that hold a member are looked at
only to tell whether a pending subgraph waits, and both directions of the index say the same.
-/

namespace DotModel

namespace Graph

variable {g : Graph} {r : Relations} {s : Settings} {limit room : Nat}
  {path names expanded : List String} {name : String} {before : Progress}

/-- The graph with these relations in place of its own. -/
def withRelations (g : Graph) (r : Relations) : Graph := { g with relations := r }

@[simp] theorem name_withRelations : (g.withRelations r).name = g.name := rfl

@[simp] theorem attrs_withRelations : (g.withRelations r).attrs = g.attrs := rfl

@[simp] theorem edges_withRelations : (g.withRelations r).edges = g.edges := rfl

@[simp] theorem children_withRelations (scope : String) :
    (g.withRelations r).children scope = r.children scope := rfl

@[simp] theorem live_withRelations (names : List String) :
    (g.withRelations r).live names = g.live names := rfl

/-- The relations give each shown scope the live members that it has in the graph. -/
def Agrees (g : Graph) (r : Relations) : Prop :=
  ∀ scope, g.IsShownScope scope → g.live (r.children scope) = g.live (g.children scope)

theorem Agrees.mem_children_iff (h : g.Agrees r) {scope : String} (hscope : g.IsShownScope scope)
    (hlive : g.IsLive name) : name ∈ r.children scope ↔ name ∈ g.children scope := by
  have hiff : name ∈ g.live (r.children scope) ↔ name ∈ g.live (g.children scope) := by
    rw [h scope hscope]
  simpa [mem_live_iff, hlive] using hiff

/-- A member that its scope does not show can be taken out of it unseen. -/
theorem agrees_remove_of_not_isLive {parent : String}
    (h : g.IsShownScope parent → name ∈ g.children parent → ¬g.IsLive name) :
    g.Agrees (g.relations.remove parent name) := by
  intro scope hscope
  rw [Relations.children_remove]
  by_cases heq : scope = parent
  · subst heq
    rw [if_pos rfl, live, List.filter_filter]
    apply List.filter_congr
    intro child hchild
    by_cases hlive : g.IsLive child
    · have hne : child ≠ name := by
        rintro rfl
        exact h hscope hchild hlive
      simp [hlive, hne]
    · simp [hlive]
  · rw [if_neg heq]
    rfl

/-! ## Scopes -/

section Expand

variable {expand : String → Progress → Except Error (Stmt × Progress)}

theorem memberStmts_withRelations :
    memberStmts (g.withRelations r) expand names before = memberStmts g expand names before :=
  memberStmts_eq_of_collections rfl rfl

theorem memberStmts_live :
    memberStmts g expand (g.live names) before = memberStmts g expand names before := by
  induction names generalizing before with
  | nil => rfl
  | cons name names ih =>
      rcases g.node?_or_isShown_or_not_isLive name with ⟨m, hm⟩ | hshown | hlive
      · rw [live_cons_of_live (Or.inl (isNode_of_node? hm)), memberStmts_node hm,
          memberStmts_node hm, ih]
      · rw [live_cons_of_live hshown.isLive, memberStmts_shown hshown, memberStmts_shown hshown]
        simp only [ih]
      · rw [live_cons_of_not_live hlive, memberStmts_skip hlive, ih]

/-- The members of a scope are written alike with relations that agree. -/
theorem Agrees.memberStmts_eq (h : g.Agrees r) {scope : String} (hscope : g.IsShownScope scope) :
    memberStmts g expand (r.children scope) before =
      memberStmts g expand (g.children scope) before := by
  rw [← memberStmts_live, h scope hscope, memberStmts_live]

end Expand

theorem Agrees.block_eq (h : g.Agrees r) (hshown : g.IsShown name) :
    block (g.withRelations r) limit room path name before =
      block g limit room path name before := by
  induction room generalizing path name before with
  | zero => rw [block, block]
  | succ room ih =>
      by_cases hpath : name ∈ path
      · rw [block_of_mem_path hpath, block_of_mem_path hpath]
      by_cases hold : name ∈ before.expanded
      · rw [block_of_mem_expanded hpath hold, block_of_mem_expanded hpath hold]
      · have hmembers : memberStmts g (block g limit room (name :: path)) (r.children name)
            (before.expand name) = _ := h.memberStmts_eq (Or.inr hshown)
        rw [block_succ hpath hold, block_succ hpath hold, memberStmts_withRelations,
          memberStmts_congr fun child before hchild => ih hchild, ← hmembers]
        rfl

theorem Agrees.rootStmts_eq (h : g.Agrees r) :
    (g.withRelations r).rootStmts limit = g.rootStmts limit := by
  have hmembers : memberStmts g (block g limit limit [g.name]) (r.children g.name) {} = _ :=
    h.memberStmts_eq (Or.inl rfl)
  rw [rootStmts, rootStmts, memberStmts_withRelations,
    memberStmts_congr fun child before hchild => h.block_eq hchild, ← hmembers]
  rfl

/-! ## Orphans -/

theorem Agrees.waits_eq (h : g.Agrees r) (hg : g.relations.Mutual) (hr : r.Mutual)
    (hshown : g.IsShown name) :
    (g.withRelations r).waits expanded name = g.waits expanded name := by
  have hparents : ∀ p, g.IsShown p →
      (p ∈ r.parents name ↔ p ∈ g.relations.parents name) := by
    intro p hp
    rw [hr p name, hg p name]
    exact h.mem_children_iff (Or.inr hp) hshown.isLive
  rw [Bool.eq_iff_iff, waits_eq_true_iff, waits_eq_true_iff]
  constructor
  · rintro ⟨p, hp, hne, hpending⟩
    have hpshown : g.IsShown p := (isPending_eq_true_iff.mp hpending).2
    exact ⟨p, (hparents p hpshown).mp hp, hne, hpending⟩
  · rintro ⟨p, hp, hne, hpending⟩
    have hpshown : g.IsShown p := (isPending_eq_true_iff.mp hpending).2
    exact ⟨p, (hparents p hpshown).mpr hp, hne, hpending⟩

theorem Agrees.pendingBlocks_eq (h : g.Agrees r) {heldBack heldBack' : List String → String → Bool}
    (hheld : ∀ expanded name, g.IsShown name → heldBack expanded name = heldBack' expanded name) :
    (g.withRelations r).pendingBlocks limit heldBack names before =
      g.pendingBlocks limit heldBack' names before := by
  induction names generalizing before with
  | nil => rfl
  | cons name names ih =>
      by_cases hturn :
          (g.isPending before.expanded name && !heldBack' before.expanded name) = true
      · have hshown : g.IsShown name := isShown_of_turn hturn
        have hturn' : ((g.withRelations r).isPending before.expanded name &&
            !heldBack before.expanded name) = true := by rwa [hheld before.expanded name hshown]
        rw [pendingBlocks_turn hturn, pendingBlocks_turn hturn', h.block_eq hshown]
        simp only [ih]
      · have hturn' : ¬((g.withRelations r).isPending before.expanded name &&
            !heldBack before.expanded name) = true := by
          intro hturn'
          have hshown : g.IsShown name := isShown_of_turn hturn'
          rw [hheld before.expanded name hshown] at hturn'
          exact hturn hturn'
        rw [pendingBlocks_skip hturn, pendingBlocks_skip hturn', ih]

theorem Agrees.orphanBlocks_eq (h : g.Agrees r) (hg : g.relations.Mutual) (hr : r.Mutual) :
    (g.withRelations r).orphanBlocks limit before = g.orphanBlocks limit before := by
  rw [Graph.orphanBlocks_eq, Graph.orphanBlocks_eq,
    h.pendingBlocks_eq fun _ _ hshown => h.waits_eq hg hr hshown]
  simp only [h.pendingBlocks_eq fun _ _ _ => rfl]
  rfl

/-! ## Documents -/

theorem Agrees.outline_eq (h : g.Agrees r) (hg : g.relations.Mutual) (hr : r.Mutual) :
    (g.withRelations r).outline s = g.outline s := by
  rw [outline, outline, h.rootStmts_eq]
  simp only [h.orphanBlocks_eq hg hr]
  rfl

theorem edgeStmts_withRelations : (g.withRelations r).edgeStmts = g.edgeStmts := rfl

/-- With relations that agree a graph gives the same document or the same error. -/
theorem Agrees.toDocument_eq (h : g.Agrees r) (hg : g.relations.Mutual) (hr : r.Mutual) :
    (g.withRelations r).toDocument s = g.toDocument s := by
  rw [Graph.toDocument_eq, Graph.toDocument_eq, h.outline_eq hg hr, edgeStmts_withRelations]
  rfl

end Graph

end DotModel
