import DotModel.Proofs.Writing.Recursion

/-!
# The limit of the levels

A higher limit changes nothing about a writing that a lower one lets through, nor about one that
ends in an error for another reason than the limit.  A subgraph counts as expanded before its level
is looked at, so a writing that goes on has the same subgraphs expanded under both limits.
-/

namespace DotModel.Graph

variable {g : Graph} {s s' : Settings} {limit limit' room room' : Nat}
  {path names : List String} {name : String} {before : Progress} {α β : Type}

/-- The second outcome is the first one, unless that tells of too many levels at a shown subgraph,
with this limit. -/
def EqUnlessTooDeep (g : Graph) (limit : Nat) (x y : Except Error α) : Prop :=
  x = y ∨ ∃ n, g.IsShown n ∧ x = .error (.nestingTooDeep n limit)

namespace EqUnlessTooDeep

theorem refl (x : Except Error α) : g.EqUnlessTooDeep limit x x := Or.inl rfl

theorem bind {x y : Except Error α} {next next' : α → Except Error β}
    (h : g.EqUnlessTooDeep limit x y) (hnext : ∀ a, g.EqUnlessTooDeep limit (next a) (next' a)) :
    g.EqUnlessTooDeep limit (x >>= next) (y >>= next') := by
  rcases h with rfl | ⟨n, hn, rfl⟩
  · cases x with
    | error e => exact Or.inl rfl
    | ok a => exact hnext a
  · exact Or.inr ⟨n, hn, rfl⟩

/-- What is done with the result of a step does not depend on the limit. -/
theorem andThen {x y : Except Error α} (h : g.EqUnlessTooDeep limit x y)
    (next : α → Except Error β) : g.EqUnlessTooDeep limit (x >>= next) (y >>= next) :=
  h.bind fun a => refl (next a)

theorem eq {x y : Except Error α} (h : g.EqUnlessTooDeep limit x y)
    (hx : ∀ n limit, x ≠ .error (.nestingTooDeep n limit)) : y = x := by
  rcases h with heq | ⟨n, -, hdeep⟩
  · exact heq.symm
  · exact absurd hdeep (hx n limit)

end EqUnlessTooDeep

/-! ## Scopes -/

theorem eqUnlessTooDeep_memberStmts
    {expand expand' : String → Progress → Except Error (Stmt × Progress)}
    (h : ∀ name before, g.IsShown name →
      g.EqUnlessTooDeep limit (expand name before) (expand' name before)) :
    g.EqUnlessTooDeep limit (memberStmts g expand names before)
      (memberStmts g expand' names before) := by
  induction names generalizing before with
  | nil => exact .refl _
  | cons name names ih =>
      rcases g.node?_or_isShown_or_not_isLive name with ⟨m, hm⟩ | hshown | hlive
      · rw [memberStmts_node hm, memberStmts_node hm]
        exact ih.andThen _
      · rw [memberStmts_shown hshown, memberStmts_shown hshown]
        apply (h name before hshown).bind
        intro b
        exact ih.andThen _
      · rw [memberStmts_skip hlive, memberStmts_skip hlive]
        exact ih

/-- A subgraph that was met before is written or refused without a look at its level. -/
theorem block_eq_of_met (hmet : name ∈ path ∨ name ∈ before.expanded) :
    block g limit room path name before = block g limit' room' path name before := by
  by_cases hpath : name ∈ path
  · rw [block_of_mem_path hpath, block_of_mem_path hpath]
  · have hold : name ∈ before.expanded := hmet.resolve_left hpath
    rw [block_of_mem_expanded hpath hold, block_of_mem_expanded hpath hold]

theorem eqUnlessTooDeep_block (hroom : room ≤ room') (hshown : g.IsShown name) :
    g.EqUnlessTooDeep limit (block g limit room path name before)
      (block g limit' room' path name before) := by
  induction room generalizing room' path name before with
  | zero =>
      by_cases hmet : name ∈ path ∨ name ∈ before.expanded
      · exact Or.inl (block_eq_of_met hmet)
      · rw [not_or] at hmet
        exact Or.inr ⟨name, hshown, block_zero hmet.1 hmet.2⟩
  | succ room ih =>
      by_cases hmet : name ∈ path ∨ name ∈ before.expanded
      · exact Or.inl (block_eq_of_met hmet)
      · rw [not_or] at hmet
        obtain ⟨lower, rfl⟩ := Nat.exists_eq_add_of_le' (Nat.le_trans (Nat.succ_pos room) hroom)
        have hlower : room ≤ lower := Nat.le_of_succ_le_succ hroom
        rw [block_succ hmet.1 hmet.2, block_succ hmet.1 hmet.2]
        apply EqUnlessTooDeep.andThen
        apply eqUnlessTooDeep_memberStmts
        intro child before hchild
        exact ih hlower hchild

theorem eqUnlessTooDeep_rootStmts (hlimit : limit ≤ limit') :
    g.EqUnlessTooDeep limit (g.rootStmts limit) (g.rootStmts limit') := by
  apply eqUnlessTooDeep_memberStmts
  intro name before hshown
  exact eqUnlessTooDeep_block hlimit hshown

/-! ## Orphans -/

theorem eqUnlessTooDeep_pendingBlocks {heldBack : List String → String → Bool}
    (hlimit : limit ≤ limit') :
    g.EqUnlessTooDeep limit (g.pendingBlocks limit heldBack names before)
      (g.pendingBlocks limit' heldBack names before) := by
  induction names generalizing before with
  | nil => exact .refl _
  | cons name names ih =>
      by_cases hturn :
          (g.isPending before.expanded name && !heldBack before.expanded name) = true
      · rw [pendingBlocks_turn hturn, pendingBlocks_turn hturn]
        apply (eqUnlessTooDeep_block hlimit (isShown_of_turn hturn)).bind
        intro b
        exact ih.andThen _
      · rw [pendingBlocks_skip hturn, pendingBlocks_skip hturn]
        exact ih

theorem eqUnlessTooDeep_orphanBlocks (hlimit : limit ≤ limit') :
    g.EqUnlessTooDeep limit (g.orphanBlocks limit before) (g.orphanBlocks limit' before) := by
  rw [orphanBlocks_eq, orphanBlocks_eq]
  apply (eqUnlessTooDeep_pendingBlocks hlimit).bind
  intro first
  exact (eqUnlessTooDeep_pendingBlocks hlimit).andThen _

/-! ## Documents -/

theorem eqUnlessTooDeep_outline (horphans : s'.emitOrphans = s.emitOrphans)
    (hdepth : s.maxDepth ≤ s'.maxDepth) :
    g.EqUnlessTooDeep s.maxDepth (g.outline s) (g.outline s') := by
  have hroot : g.EqUnlessTooDeep s.maxDepth (g.rootStmts s.maxDepth) (g.rootStmts s'.maxDepth) :=
    eqUnlessTooDeep_rootStmts hdepth
  by_cases hs : s.emitOrphans = true
  · rw [outline_eq_of_orphans hs, outline_eq_of_orphans (horphans.trans hs)]
    apply hroot.bind
    intro r
    exact (eqUnlessTooDeep_orphanBlocks hdepth).andThen _
  · rw [Bool.not_eq_true] at hs
    rw [outline_eq_of_no_orphans hs, outline_eq_of_no_orphans (horphans.trans hs)]
    exact hroot.andThen _

theorem eqUnlessTooDeep_toDocument (horphans : s'.emitOrphans = s.emitOrphans)
    (hdepth : s.maxDepth ≤ s'.maxDepth) :
    g.EqUnlessTooDeep s.maxDepth (g.toDocument s) (g.toDocument s') := by
  rw [toDocument_eq, toDocument_eq]
  exact (eqUnlessTooDeep_outline horphans hdepth).andThen _

/-- With as many levels as subgraphs no writing tells of too many levels. -/
theorem not_tooDeep_of_size_le (h : g.subgraphs.size ≤ s.maxDepth) (n : String) (limit : Nat) :
    g.toDocument s ≠ .error (.nestingTooDeep n limit) := by
  intro herror
  rcases toDocument_error_kinds herror with ⟨_, heq⟩ | ⟨_, _, hless⟩ | ⟨_, _, heq⟩
  · cases heq
  · omega
  · cases heq

/-- The error for too many levels names a shown subgraph, since a writing with enough levels is
another one. -/
theorem isShown_of_tooDeep {n : String} (h : g.toDocument s = .error (.nestingTooDeep n limit)) :
    limit = s.maxDepth ∧ g.IsShown n := by
  have henough : g.EqUnlessTooDeep s.maxDepth (g.toDocument s)
      (g.toDocument { s with maxDepth := max s.maxDepth g.subgraphs.size }) :=
    eqUnlessTooDeep_toDocument rfl (Nat.le_max_left _ _)
  rcases henough with heq | ⟨n', hshown, hdeep⟩
  · rw [h] at heq
    exact absurd heq.symm (not_tooDeep_of_size_le (Nat.le_max_right _ _) n limit)
  · rw [h] at hdeep
    cases hdeep
    exact ⟨rfl, hshown⟩

/-- The limit decides only whether a writing is stopped.  Under a higher limit, and with any
indentation, everything but the error for too many levels stays as it is, and that error tells the
limit and a registered subgraph. -/
theorem toDocument_eq_of_maxDepth_le (horphans : s'.emitOrphans = s.emitOrphans)
    (hdepth : s.maxDepth ≤ s'.maxDepth) :
    ((∀ n limit, g.toDocument s ≠ .error (.nestingTooDeep n limit)) →
      g.toDocument s' = g.toDocument s) ∧
    ∀ n limit, g.toDocument s = .error (.nestingTooDeep n limit) →
      limit = s.maxDepth ∧ g.isSubgraph n = true := by
  refine ⟨(eqUnlessTooDeep_toDocument horphans hdepth).eq, ?_⟩
  intro n limit h
  obtain ⟨hlimit, hshown⟩ := isShown_of_tooDeep h
  exact ⟨hlimit, hshown.1⟩

/-- Two subgraphs, each of them inside the other one. -/
def mutuallyHeld : Graph :=
  empty.performAll [.setName "G", .addSubgraph "G" "a" ∅, .addSubgraph "a" "b" ∅,
    .addSubgraph "b" "a" ∅]

/-- One level is too few to find the cycle, and two are as good as seven. -/
theorem mutuallyHeld_limits :
    (mutuallyHeld.toDocument { maxDepth := 1 } = .error (.nestingTooDeep "b" 1) ∧
      mutuallyHeld.isSubgraph "b" = true) ∧
    mutuallyHeld.toDocument { maxDepth := 2 } = .error (.relationCycle "a") ∧
    mutuallyHeld.toDocument { maxDepth := 7, indent := "  " } = .error (.relationCycle "a") := by
  have hone : mutuallyHeld.toDocument { maxDepth := 1 } = .error (.nestingTooDeep "b" 1) := by
    decide +kernel
  have htwo : mutuallyHeld.toDocument { maxDepth := 2 } = .error (.relationCycle "a") := by
    decide +kernel
  refine ⟨⟨hone, ?_⟩, htwo, ?_⟩
  · have hlow := @toDocument_eq_of_maxDepth_le mutuallyHeld { maxDepth := 1 } { maxDepth := 2 } rfl
      (by decide)
    exact (hlow.2 "b" 1 hone).2
  · have hhigh := @toDocument_eq_of_maxDepth_le mutuallyHeld { maxDepth := 2 }
      { maxDepth := 7, indent := "  " } rfl (by decide)
    have hother : ∀ n limit,
        mutuallyHeld.toDocument { maxDepth := 2 } ≠ .error (.nestingTooDeep n limit) := by
      intro n limit hdeep
      rw [htwo] at hdeep
      cases hdeep
    rw [hhigh.1 hother, htwo]

end DotModel.Graph
