import DotModel.Proofs.Graph.Consistency
import DotModel.Proofs.Writing.Orphans
import DotModel.Proofs.Writing.Trail

/-!
# Cycles

Writing finds cycles exactly.  If there are levels enough for all subgraphs, a graph cannot be
written because of a cycle if and only if some shown subgraph contains itself and is met: with
orphans every shown subgraph is met, without them those that the graph's own scope leads to.
-/

namespace DotModel.Graph

open Relation

variable {g : Graph} {s : Settings} {limit : Nat} {names : List String} {before after : Progress}
  {e : Error}

/-! ## What an error tells -/

theorem exists_block_error_of_pendingBlocks {heldBack : List String → String → Bool}
    (h : g.pendingBlocks limit heldBack names before = .error e) :
    ∃ name before, g.IsShown name ∧ block g limit limit [] name before = .error e := by
  induction names generalizing before with
  | nil => cases h
  | cons name names ih =>
      by_cases hturn :
          (g.isPending before.expanded name && !heldBack before.expanded name) = true
      · have hshown : g.IsShown name := isShown_of_turn hturn
        rw [pendingBlocks_turn hturn, bind_eq_error_iff] at h
        rcases h with h | ⟨_, _, h⟩
        · exact ⟨name, before, hshown, h⟩
        · rw [bind_eq_error_iff] at h
          rcases h with h | ⟨_, _, h⟩
          · exact ih h
          · cases h
      · rw [pendingBlocks_skip hturn] at h
        exact ih h

theorem exists_block_error_of_orphanBlocks (h : g.orphanBlocks limit before = .error e) :
    ∃ name before, g.IsShown name ∧ block g limit limit [] name before = .error e := by
  rw [orphanBlocks_eq, bind_eq_error_iff] at h
  rcases h with h | ⟨_, _, h⟩
  · exact exists_block_error_of_pendingBlocks h
  · rw [bind_eq_error_iff] at h
    rcases h with h | ⟨_, _, h⟩
    · exact exists_block_error_of_pendingBlocks h
    · cases h

/-- What goes wrong before the edges goes wrong in a block at the top level, inside the graph's
own scope or among the orphans. -/
theorem exists_block_error_of_outline (h : g.outline s = .error e) :
    ∃ path name before,
      (path = [g.name] ∨ s.emitOrphans = true ∧ path = []) ∧ g.IsShown name ∧
        g.IsTrail (name :: path) ∧
        block g s.maxDepth s.maxDepth path name before = .error e := by
  have hroot : g.rootStmts s.maxDepth = .error e →
      ∃ path name before,
        (path = [g.name] ∨ s.emitOrphans = true ∧ path = []) ∧ g.IsShown name ∧
          g.IsTrail (name :: path) ∧
          block g s.maxDepth s.maxDepth path name before = .error e := by
    intro hr
    obtain ⟨name, hchild, hshown, before, herr⟩ := exists_expand_error_of_memberStmts hr
    refine ⟨[g.name], name, before, Or.inl rfl, hshown, ?_, herr⟩
    exact List.isChain_cons_cons.mpr ⟨⟨hchild, hshown⟩, List.isChain_singleton g.name⟩
  cases hs : s.emitOrphans with
  | true =>
      rw [outline_eq_of_orphans hs, bind_eq_error_iff] at h
      rcases h with h | ⟨_, _, h⟩
      · simpa only [hs] using hroot h
      · rw [bind_eq_error_iff] at h
        rcases h with h | ⟨_, _, h⟩
        · obtain ⟨name, before, hshown, herr⟩ := exists_block_error_of_orphanBlocks h
          exact ⟨[], name, before, Or.inr ⟨rfl, rfl⟩, hshown, List.isChain_singleton name, herr⟩
        · cases h
  | false =>
      rw [outline_eq_of_no_orphans hs, bind_eq_error_iff] at h
      rcases h with h | ⟨_, _, h⟩
      · simpa only [hs] using hroot h
      · cases h

/-- An error before the edges names a subgraph that contains itself, or tells that there are fewer
levels than subgraphs. -/
theorem outline_error_cases (h : g.outline s = .error e) :
    (∃ n, e = .relationCycle n ∧ g.OnCycle n ∧ (s.emitOrphans = false → g.IsReached n)) ∨
      ∃ n, e = .nestingTooDeep n s.maxDepth ∧ s.maxDepth < g.subgraphs.size := by
  obtain ⟨path, name, before, hpath, hshown, htrail, herr⟩ := exists_block_error_of_outline h
  have hnodup : path.Nodup := by
    rcases hpath with rfl | ⟨_, rfl⟩ <;> simp
  obtain ⟨n, above, ht, hs, hn, hend⟩ := exists_trail_of_block_error hshown hnodup htrail herr
  rcases hend with ⟨hmem, rfl⟩ | ⟨hnew, hlength, rfl⟩
  · refine Or.inl ⟨n, rfl, ht.onCycle hmem, ?_⟩
    intro horphans
    rcases hpath with rfl | ⟨htrue, _⟩
    · exact ht.transGen_holds (List.mem_append_right above List.mem_cons_self)
    · rw [horphans] at htrue
      cases htrue
  · refine Or.inr ⟨n, rfl, ?_⟩
    have hdistinct : (n :: above).Nodup := by
      rw [List.nodup_cons]
      exact ⟨fun hmem => hnew (List.mem_append_left path hmem), hn.of_append_left⟩
    have hle : (n :: above).length ≤ g.subgraphs.size := length_le_size_subgraphs hdistinct hs
    rw [List.length_cons, hlength] at hle
    exact hle

theorem toDocument_eq_relationCycle_iff {n : String} :
    g.toDocument s = .error (.relationCycle n) ↔ g.outline s = .error (.relationCycle n) := by
  constructor
  · intro h
    rcases toDocument_error_cases h with h | h
    · exact h
    · obtain ⟨_, _, heq⟩ := exists_port_of_edgeStmts_error h
      cases heq
  · intro h
    rw [toDocument_eq, h, error_bind]

/-! ## What a success tells -/

theorem exists_walk_of_rootStmts {stmts : List Stmt}
    (h : g.rootStmts limit = .ok (stmts, after)) :
    ∃ places, Walk g limit [g.name] (g.children g.name) [] places after.expanded ∧
      stmts = Place.toStmts g places := by
  obtain ⟨places, w, hstmts, -⟩ := memberStmts_eq_ok_iff.mp h
  exact ⟨places, w, hstmts⟩

theorem not_onCycle_of_isReached {stmts : List Stmt}
    (h : g.rootStmts limit = .ok (stmts, after)) {n : String} (hn : g.IsReached n) :
    ¬g.OnCycle n := by
  obtain ⟨places, w, -⟩ := exists_walk_of_rootStmts h
  have hfin : g.Finished [g.name] after.expanded := w.finished .nil
  obtain ⟨first, hstep, hrest⟩ := TransGen.head'_iff.mp hn
  obtain ⟨hfirst, hopen⟩ := w.mem_of_mem_names hstep.1 hstep.2
  obtain ⟨hdone, hclosed⟩ := hfin.reflTransGen hfirst hopen hrest
  exact hfin.acyclic hdone hclosed

theorem Walk.finished_root {limit : Nat} {names expanded : List String} {places : List Place}
    (w : Walk g limit [g.name] names [] places expanded) : g.Finished [] expanded :=
  (w.finished .nil).of_disjoint fun _ hn => (w.isShown_of_mem hn List.not_mem_nil).2

theorem not_onCycle_of_outline {o : Outline} (hg : g.Coherent) (hs : s.emitOrphans = true)
    (h : g.outline s = .ok o) (n : String) : ¬g.OnCycle n := by
  obtain ⟨members, between, blocks, after, hroot, horphans, -⟩ :=
    outline_ok_cases_of_orphans hs h
  obtain ⟨places, w, -⟩ := exists_walk_of_rootStmts hroot
  obtain ⟨tops, places', w', -, -, -, hall⟩ :=
    exists_walk_of_orphanBlocks hg w.finished_root horphans
  exact (w'.finished w.finished_root).not_onCycle
    (fun n hn => ⟨hall n hn, List.not_mem_nil⟩) n

/-! ## Exact detection -/

/-- Writing fails because of a cycle exactly if there is one among the subgraphs that it meets, and
then it names a subgraph on a cycle. -/
theorem toDocument_relationCycle_iff (hg : g.Reachable) (hdepth : g.subgraphs.size ≤ s.maxDepth) :
    (s.emitOrphans = true →
      ((∃ n, g.toDocument s = .error (.relationCycle n)) ↔ ∃ n, g.OnCycle n)) ∧
    (s.emitOrphans = false →
      ((∃ n, g.toDocument s = .error (.relationCycle n)) ↔
        ∃ n, g.OnCycle n ∧ g.IsReached n)) ∧
    ∀ n, g.toDocument s = .error (.relationCycle n) → g.OnCycle n := by
  have hname : ∀ n, g.toDocument s = .error (.relationCycle n) →
      g.OnCycle n ∧ (s.emitOrphans = false → g.IsReached n) := by
    intro n h
    rcases outline_error_cases (toDocument_eq_relationCycle_iff.mp h) with
      ⟨m, heq, hm⟩ | ⟨m, heq, _⟩
    · cases heq
      exact hm
    · cases heq
  have herror : (∀ o, g.outline s ≠ .ok o) → ∃ n, g.toDocument s = .error (.relationCycle n) := by
    intro hfail
    cases h : g.outline s with
    | ok o => exact absurd h (hfail o)
    | error e =>
        rcases outline_error_cases h with ⟨n, rfl, _⟩ | ⟨n, _, hless⟩
        · exact ⟨n, toDocument_eq_relationCycle_iff.mpr h⟩
        · omega
  refine ⟨?_, ?_, fun n h => (hname n h).1⟩
  · intro hs
    constructor
    · rintro ⟨n, h⟩
      exact ⟨n, (hname n h).1⟩
    · rintro ⟨n, hcycle⟩
      exact herror fun o h => not_onCycle_of_outline hg.coherent hs h n hcycle
  · intro hs
    constructor
    · rintro ⟨n, h⟩
      exact ⟨n, (hname n h).1, (hname n h).2 hs⟩
    · rintro ⟨n, hcycle, hreached⟩
      refine herror fun o h => ?_
      rw [outline_eq_of_no_orphans hs, bind_eq_ok_iff] at h
      obtain ⟨⟨members, after⟩, hroot, -⟩ := h
      exact not_onCycle_of_isReached hroot hreached hcycle

/-- Two subgraphs that contain each other, in a graph whose new name does not lead to them. -/
def lostLoop : Graph :=
  empty.performAll [.addSubgraph "" "a" ∅, .addSubgraph "a" "b" ∅, .addSubgraph "b" "a" ∅,
    .setName "G"]

theorem lostLoop_toDocument_error :
    lostLoop.Reachable ∧ lostLoop.subgraphs.size ≤ Settings.maxDepth {} ∧
      ∃ n, lostLoop.toDocument {} = .error (.relationCycle n) := by
  have hreachable : lostLoop.Reachable := ⟨_, rfl⟩
  have hdepth : lostLoop.subgraphs.size ≤ Settings.maxDepth {} := by decide
  have hab : lostLoop.Nests "a" "b" := by decide
  have hba : lostLoop.Nests "b" "a" := by decide
  have hcycle : lostLoop.OnCycle "a" := .tail (.single hab) hba
  exact ⟨hreachable, hdepth,
    ((toDocument_relationCycle_iff hreachable hdepth).1 rfl).mpr ⟨"a", hcycle⟩⟩

end DotModel.Graph
