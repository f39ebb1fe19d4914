import DotModel.Proofs.Writing.Cycles
import Mathlib.Algebra.Group.Nat.Defs

/-!
# The depth of the recursion

Writing ends for every graph, also for one whose relations are cyclic or do not fit each other, and
under any limit.  It gives a document or one of three errors, each of which tells that the graph
itself cannot be written.

The scopes around a block are distinct shown subgraphs, besides the graph's own scope, so that the
number of subgraphs bounds the levels as well as the limit does.  This is told by a second form of
blocks that counts its levels upwards and breaks down beyond some level: up to the level that it
needs both forms are the same, however the counter breaks down.
-/

namespace DotModel.Graph

variable {g : Graph} {s : Settings} {limit room cap depth : Nat} {overflow : Error}
  {base above : List String} {name : String} {before : Progress}

/-! ## Counting levels upwards -/

/-- The block of a subgraph at level `depth`, by a counter that goes up to `cap`.  A call at a level
beyond it fails with `overflow`, before anything else is looked at. -/
def countedBlock (g : Graph) (limit cap : Nat) (overflow : Error) (depth : Nat)
    (path : List String) (name : String) (before : Progress) : Except Error (Stmt × Progress) :=
  if cap < depth then
    .error overflow
  else if name ∈ path then
    .error (.relationCycle name)
  else if name ∈ before.expanded then
    .ok (.subgraph (.ofName name) [] [], before)
  else if limit < depth then
    .error (.nestingTooDeep name limit)
  else do
    let (body, after) ←
      memberStmts g (countedBlock g limit cap overflow (depth + 1) (name :: path))
        (g.children name) (before.expand name)
    let attrs := ((g.subgraph? name).map fun sub => attrStmts name sub.attrs).getD []
    .ok (.subgraph (.ofName name) attrs body, after)
termination_by cap + 1 - depth

/-- Writing makes no call at a level beyond `cap`, neither from the graph's own scope nor for a
pending subgraph: such a call would fail with `overflow`, and with it the whole. -/
def StaysWithin (g : Graph) (limit cap : Nat) : Prop :=
  ∀ overflow : Error,
    memberStmts g (countedBlock g limit cap overflow 1 [g.name]) (g.children g.name) {} =
        g.rootStmts limit ∧
      ∀ name before, g.isPending before.expanded name = true →
        countedBlock g limit cap overflow 1 [] name before = block g limit limit [] name before

/-- Both forms of a block are the same inside of distinct shown subgraphs, which are fewer than the
level by one, if the counter goes up to the limit or to the number of subgraphs, and one further. -/
theorem countedBlock_eq_block (hcap : min limit g.subgraphs.size + 1 ≤ cap)
    (hnodup : above.Nodup) (habove : ∀ n ∈ above, g.IsShown n) (hshown : g.IsShown name)
    (hroom : above.length + room = limit) :
    countedBlock g limit cap overflow (above.length + 1) (above ++ base) name before =
      block g limit room (above ++ base) name before := by
  induction room generalizing above name before with
  | zero =>
      have hsize : above.length ≤ g.subgraphs.size := length_le_size_subgraphs hnodup habove
      rw [countedBlock, block, if_neg (by omega), if_pos (by omega : limit < above.length + 1)]
  | succ room ih =>
      have hsize : above.length ≤ g.subgraphs.size := length_le_size_subgraphs hnodup habove
      rw [countedBlock, block, if_neg (by omega), if_neg (by omega : ¬limit < above.length + 1)]
      by_cases hpath : name ∈ above ++ base
      · rw [if_pos hpath, if_pos hpath]
      · have hnew : name ∉ above := fun hmem => hpath (List.mem_append_left base hmem)
        have hbody : ∀ child before, g.IsShown child →
            countedBlock g limit cap overflow (above.length + 1 + 1) (name :: (above ++ base))
                child before =
              block g limit room (name :: (above ++ base)) child before := by
          intro child before hchild
          have hnodup' : (name :: above).Nodup := List.nodup_cons.mpr ⟨hnew, hnodup⟩
          have habove' : ∀ n ∈ name :: above, g.IsShown n :=
            List.forall_mem_cons.mpr ⟨hshown, habove⟩
          have hroom' : (name :: above).length + room = limit := by
            rw [List.length_cons]
            omega
          exact ih hnodup' habove' hchild hroom'
        rw [memberStmts_congr hbody]

theorem staysWithin (hcap : min limit g.subgraphs.size + 1 ≤ cap) : g.StaysWithin limit cap := by
  intro overflow
  have htop : ∀ base name before, g.IsShown name →
      countedBlock g limit cap overflow 1 base name before =
        block g limit limit base name before := by
    intro base name before hshown
    have hnone : ([] : List String).Nodup := List.nodup_nil
    exact countedBlock_eq_block hcap hnone (List.forall_mem_nil _) hshown (Nat.zero_add limit)
  refine ⟨memberStmts_congr (htop [g.name]), ?_⟩
  intro name before hpending
  exact htop [] name before (isPending_eq_true_iff.mp hpending).2

/-- A subgraph that is a member of itself. -/
def selfHeld : Graph :=
  empty.performAll [.setName "G", .addSubgraph "G" "a" ∅, .addSubgraph "a" "a" ∅]

-- The counter cannot end earlier: the one subgraph here is met again at the second level.
example : countedBlock selfHeld 5 1 .unreadable 1 [] "a" {} = .error .unreadable := by cbv

/-! ## How writing ends -/

theorem toDocument_error_kinds {e : Error} (h : g.toDocument s = .error e) :
    (∃ n, e = .relationCycle n) ∨
      (∃ n, e = .nestingTooDeep n s.maxDepth ∧ s.maxDepth < g.subgraphs.size) ∨
      ∃ n port, e = .portOnSubgraph n port := by
  rcases toDocument_error_cases h with h | h
  · rcases outline_error_cases h with ⟨n, hn, -⟩ | hdeep
    · exact Or.inl ⟨n, hn⟩
    · exact Or.inr (Or.inl hdeep)
  · exact Or.inr (Or.inr (exists_port_of_edgeStmts_error h))

/-- Whatever the graph and the settings are, writing gives a document or an error that tells of a
cycle, of too many levels, or of a port of a subgraph.  It never tells of too many levels if there
are as many as subgraphs.  Its calls are at levels up to the limit or the number of subgraphs,
whichever is less, and one further.  So a counter of 64 bits does not overflow under any limit, as
long as it could count the subgraphs. -/
theorem toDocument_outcome (g : Graph) (s : Settings) :
    ((∃ doc, g.toDocument s = .ok doc) ∨
      ∃ e, g.toDocument s = .error e ∧ e.isStructural = true ∧
        ((∃ n, e = .relationCycle n) ∨ (∃ n, e = .nestingTooDeep n s.maxDepth) ∨
          ∃ n port, e = .portOnSubgraph n port)) ∧
    (g.subgraphs.size ≤ s.maxDepth →
      ∀ n limit, g.toDocument s ≠ .error (.nestingTooDeep n limit)) ∧
    g.StaysWithin s.maxDepth (min s.maxDepth g.subgraphs.size + 1) ∧
    (g.subgraphs.size + 1 < 2 ^ 64 → g.StaysWithin s.maxDepth (2 ^ 64 - 1)) := by
  refine ⟨?_, ?_, staysWithin (Nat.le_refl _), fun hsize => staysWithin (by omega)⟩
  · cases h : g.toDocument s with
    | ok doc => exact Or.inl ⟨doc, rfl⟩
    | error e =>
        refine Or.inr ⟨e, rfl, ?_⟩
        rcases toDocument_error_kinds h with ⟨n, rfl⟩ | ⟨n, rfl, -⟩ | ⟨n, port, rfl⟩
        · exact ⟨rfl, Or.inl ⟨n, rfl⟩⟩
        · exact ⟨rfl, Or.inr (Or.inl ⟨n, rfl⟩)⟩
        · exact ⟨rfl, Or.inr (Or.inr ⟨n, port, rfl⟩)⟩
  · intro hsize n limit h
    rcases toDocument_error_kinds h with ⟨_, heq⟩ | ⟨_, _, hless⟩ | ⟨_, _, heq⟩
    · cases heq
    · omega
    · cases heq

end DotModel.Graph
