import DotModel.Proofs.Graph.Coherence
import DotModel.Proofs.Writing.Finished

/-!
# Orphans

Both rounds over the pending subgraphs are walks at the top level.  When they end, every shown
subgraph is expanded, so no subgraph contains itself, and then the first round has left nothing to
the second: a subgraph that is held back waits for one that comes later and brings it along.  The
subgraphs that get a block at the top level are therefore those that no shown subgraph holds.
-/

namespace DotModel.Graph

open Relation

variable {g : Graph} {limit : Nat} {names expanded expanded' : List String} {name : String}
  {before after : Progress} {heldBack : List String → String → Bool}

theorem isPending_eq_true_iff :
    g.isPending expanded name = true ↔ name ∉ expanded ∧ g.IsShown name := by
  simp [isPending, IsShown, and_assoc]

theorem isShown_of_turn
    (hturn : (g.isPending expanded name && !heldBack expanded name) = true) : g.IsShown name :=
  (isPending_eq_true_iff.mp (Bool.and_eq_true_iff.mp hturn).1).2

theorem waits_eq_true_iff :
    g.waits expanded name = true ↔
      ∃ p ∈ g.relations.parents name, p ≠ name ∧ g.isPending expanded p = true := by
  simp [waits]

/-! ## One round -/

/-- What a round over `names` does with the pending subgraphs: it goes along some of them, each of
which was pending and not held back when its turn came, and what is pending in the end was held
back. -/
structure Round (g : Graph) (heldBack : List String → String → Bool)
    (names tops expanded expanded' : List String) : Prop where
  sublist : tops.Sublist names
  turn : ∀ u ∈ tops, ∃ before, g.Finished [] before ∧ expanded ⊆ before ∧
    g.isPending before u = true ∧ heldBack before u = false
  left : ∀ u ∈ names, g.isPending expanded' u = true →
    ∃ before, before ⊆ expanded' ∧ heldBack before u = true

namespace Round

theorem nil : Round g heldBack [] [] expanded expanded where
  sublist := .slnil
  turn := by simp
  left := by simp

theorem cons {tops between : List String} (hfin : g.Finished [] expanded)
    (hpending : g.isPending expanded name = true) (hfree : heldBack expanded name = false)
    (hbefore : expanded ⊆ between) (hdone : name ∈ expanded')
    (rest : Round g heldBack names tops between expanded') :
    Round g heldBack (name :: names) (name :: tops) expanded expanded' where
  sublist := rest.sublist.cons_cons name
  turn := by
    rw [List.forall_mem_cons]
    refine ⟨⟨expanded, hfin, List.Subset.refl _, hpending, hfree⟩, ?_⟩
    intro u hu
    obtain ⟨before, hb, hsubset, hp, hf⟩ := rest.turn u hu
    exact ⟨before, hb, fun _ hn => hsubset (hbefore hn), hp, hf⟩
  left := by
    rw [List.forall_mem_cons]
    exact ⟨fun hstill => absurd hdone (isPending_eq_true_iff.mp hstill).1, rest.left⟩

theorem skip {tops : List String} (hsubset : expanded ⊆ expanded')
    (hturn : ¬(g.isPending expanded name && !heldBack expanded name) = true)
    (rest : Round g heldBack names tops expanded expanded') :
    Round g heldBack (name :: names) tops expanded expanded' where
  sublist := rest.sublist.cons name
  turn := rest.turn
  left := by
    rw [List.forall_mem_cons]
    refine ⟨?_, rest.left⟩
    intro hstill
    obtain ⟨hnew, hshown⟩ := isPending_eq_true_iff.mp hstill
    have hpending : g.isPending expanded name = true :=
      isPending_eq_true_iff.mpr ⟨fun hn => hnew (hsubset hn), hshown⟩
    refine ⟨expanded, hsubset, ?_⟩
    simpa [hpending] using hturn

end Round

/-- The blocks of a round come from a walk along the subgraphs whose turn it was. -/
theorem exists_walk_of_pendingBlocks {stmts : List Stmt} (hfin : g.Finished [] before.expanded)
    (h : g.pendingBlocks limit heldBack names before = .ok (stmts, after)) :
    ∃ tops places, Walk g limit [] tops before.expanded places after.expanded ∧
      stmts = Place.toStmts g places ∧
      Round g heldBack names tops before.expanded after.expanded := by
  induction names generalizing before stmts with
  | nil =>
      cases h
      exact ⟨[], [], .nil, rfl, .nil⟩
  | cons name names ih =>
      rcases pendingBlocks_ok_cases h with
        ⟨hturn, top, between, rest, htop, hrest, rfl⟩ | ⟨hturn, hrest⟩
      · have hshown : g.IsShown name := isShown_of_turn hturn
        rw [Bool.and_eq_true, Bool.not_eq_true'] at hturn
        obtain ⟨hpending, hfree⟩ := hturn
        obtain ⟨place, w, rfl, -⟩ := exists_walk_of_block hshown htop
        obtain ⟨tops, places, wrest, rfl, hround⟩ := ih (w.finished hfin) hrest
        have hdone : name ∈ after.expanded :=
          wrest.subset (w.mem_of_mem_names List.mem_cons_self hshown).1
        exact ⟨name :: tops, place :: places, w.append wrest, rfl,
          .cons hfin hpending hfree w.subset hdone hround⟩
      · obtain ⟨tops, places, w, hstmts, hround⟩ := ih hfin hrest
        exact ⟨tops, places, w, hstmts, .skip w.subset hturn hround⟩

/-! ## Both rounds -/

/-- Without cycles the first round leaves nothing pending, since what it left would be held by
another subgraph that it left. -/
theorem Round.not_isPending {tops between : List String} (hg : g.Coherent)
    (hacyclic : ∀ n, ¬g.OnCycle n) (hfin : g.Finished [] between)
    (hround : Round g g.waits g.subgraphs.keys tops expanded between) :
    ∀ u, ¬g.isPending between u = true := by
  refine not_of_forall_held hacyclic ?_
  intro u hu
  obtain ⟨hnew, hshown⟩ := isPending_eq_true_iff.mp hu
  have hkey : u ∈ g.subgraphs.keys := OrdMap.mem_def.mp (isSubgraph_eq_true_iff.mp hshown.1)
  obtain ⟨before, -, hwaits⟩ := hround.left u hkey hu
  obtain ⟨p, hp, -, hpending⟩ := waits_eq_true_iff.mp hwaits
  have hpshown : g.IsShown p := (isPending_eq_true_iff.mp hpending).2
  have hstep : g.Holds p u := ⟨(hg.relations p u).mp hp, hshown⟩
  have hpnew : p ∉ between := fun hdone =>
    hnew (hfin.closed hdone List.not_mem_nil hstep).1
  exact ⟨p, isPending_eq_true_iff.mpr ⟨hpnew, hpshown⟩, hpshown, hstep⟩

/-- Without cycles a subgraph that does not wait is held by no shown subgraph: that one would have
been expanded before, and with it its members. -/
theorem not_holds_of_not_waits {before : List String} {u p : String} (hg : g.Coherent)
    (hacyclic : ∀ n, ¬g.OnCycle n) (hfin : g.Finished [] before) (hnew : u ∉ before)
    (hfree : g.waits before u = false) (hp : g.IsShown p) : ¬g.Holds p u := by
  intro hstep
  by_cases hpu : p = u
  · subst hpu
    exact hacyclic p (onCycle_iff.mpr (.single hstep))
  · have hdone : p ∈ before := by
      by_contra hpnew
      have hwaits : g.waits before u = true := waits_eq_true_iff.mpr
        ⟨p, (hg.relations p u).mpr hstep.1, hpu, isPending_eq_true_iff.mpr ⟨hpnew, hp⟩⟩
      rw [hfree] at hwaits
      cases hwaits
    exact hnew (hfin.closed hdone List.not_mem_nil hstep).1

theorem Round.mem_of_isShown {tops : List String} {u : String}
    (hround : Round g (fun _ _ => false) g.subgraphs.keys tops expanded expanded')
    (hu : g.IsShown u) : u ∈ expanded' := by
  by_contra hnew
  have hkey : u ∈ g.subgraphs.keys := OrdMap.mem_def.mp (isSubgraph_eq_true_iff.mp hu.1)
  obtain ⟨_, _, hheld⟩ := hround.left u hkey (isPending_eq_true_iff.mpr ⟨hnew, hu⟩)
  cases hheld

/-- A round has nothing to do when nothing is pending. -/
theorem pendingBlocks_eq_nil (h : ∀ n, g.isPending before.expanded n = false) :
    g.pendingBlocks limit heldBack names before = .ok ([], before) := by
  induction names with
  | nil => rfl
  | cons n rest ih =>
      rw [pendingBlocks, h n]
      exact ih

/-- When the orphan blocks can be written there are no cycles, all blocks come from the first round,
and the second one has nothing to do. -/
theorem rounds_of_orphanBlocks {stmts : List Stmt} (hg : g.Coherent)
    (hfin : g.Finished [] before.expanded)
    (h : g.orphanBlocks limit before = .ok (stmts, after)) :
    (∀ n, ¬g.OnCycle n) ∧
      g.pendingBlocks limit g.waits g.subgraphs.keys before = .ok (stmts, after) ∧
      g.pendingBlocks limit (fun _ _ => false) g.subgraphs.keys after = .ok ([], after) := by
  obtain ⟨first, between, second, hfirst, hsecond, rfl⟩ := orphanBlocks_ok_cases h
  rw [hg.subgraphs.map_name_values] at hfirst hsecond
  obtain ⟨tops, places, w₁, -, hround₁⟩ := exists_walk_of_pendingBlocks hfin hfirst
  have hfin₁ : g.Finished [] between.expanded := w₁.finished hfin
  obtain ⟨tops₂, places₂, w₂, -, hround₂⟩ := exists_walk_of_pendingBlocks hfin₁ hsecond
  have hacyclic : ∀ n, ¬g.OnCycle n := (w₂.finished hfin₁).not_onCycle fun n hn =>
    ⟨hround₂.mem_of_isShown hn, List.not_mem_nil⟩
  have hnone : ∀ n, g.isPending between.expanded n = false := fun n =>
    Bool.eq_false_iff.mpr (hround₁.not_isPending hg hacyclic hfin₁ n)
  rw [pendingBlocks_eq_nil hnone] at hsecond
  cases hsecond
  rw [List.append_nil]
  exact ⟨hacyclic, hfirst, pendingBlocks_eq_nil hnone⟩

/-- The orphan blocks come from one walk along some registered subgraphs, none of which a shown
subgraph holds.  After it every shown subgraph is expanded. -/
theorem exists_walk_of_orphanBlocks {stmts : List Stmt} (hg : g.Coherent)
    (hfin : g.Finished [] before.expanded)
    (h : g.orphanBlocks limit before = .ok (stmts, after)) :
    ∃ tops places, Walk g limit [] tops before.expanded places after.expanded ∧
      stmts = Place.toStmts g places ∧ tops.Sublist g.subgraphs.keys ∧
      (∀ u ∈ tops, g.IsShown u ∧ u ∉ before.expanded ∧ ∀ p, g.IsShown p → ¬g.Holds p u) ∧
      ∀ u, g.IsShown u → u ∈ after.expanded := by
  obtain ⟨hacyclic, hfirst, hsecond⟩ := rounds_of_orphanBlocks hg hfin h
  obtain ⟨tops, places, w, rfl, hround⟩ := exists_walk_of_pendingBlocks hfin hfirst
  obtain ⟨_, _, _, _, hlast⟩ := exists_walk_of_pendingBlocks (w.finished hfin) hsecond
  refine ⟨tops, places, w, rfl, hround.sublist, ?_, fun u hu => hlast.mem_of_isShown hu⟩
  intro u hu
  obtain ⟨before, hbefore, hsubset, hpending, hfree⟩ := hround.turn u hu
  obtain ⟨hnew, hshown⟩ := isPending_eq_true_iff.mp hpending
  exact ⟨hshown, fun hn => hnew (hsubset hn), fun p hp =>
    not_holds_of_not_waits hg hacyclic hbefore hnew hfree hp⟩

end DotModel.Graph
