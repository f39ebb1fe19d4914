import DotModel.Proofs.Writing.Steps
import Mathlib.Data.List.Chain
import Mathlib.Data.List.Perm.Subperm

/-!
# Trails

A *trail* lists scopes from the innermost outwards, each a member of the next.  An error in a block
tells of a trail below it: one that leads back to a scope on it, or one that is longer than the
settings allow.
-/

namespace DotModel.Graph

open Relation

variable {g : Graph} {limit room : Nat} {path names : List String} {name : String}
  {before : Progress} {e : Error}

/-- Each name is a shown member of the scope that follows it. -/
def IsTrail (g : Graph) (names : List String) : Prop :=
  names.IsChain fun child scope => g.Holds scope child

theorem IsTrail.transGen_holds {scope : String} (h : g.IsTrail (name :: path))
    (hscope : scope ∈ path) : TransGen g.Holds scope name := by
  have hchain : (name :: path).IsChain fun child scope => TransGen g.Holds scope child :=
    h.imp fun _ _ hstep => .single hstep
  have htrans : IsTrans String fun child scope => TransGen g.Holds scope child :=
    ⟨fun _ _ _ h₁ h₂ => h₂.trans h₁⟩
  exact hchain.rel_cons hscope

theorem IsTrail.onCycle (h : g.IsTrail (name :: path)) (hname : name ∈ path) : g.OnCycle name :=
  onCycle_iff.mpr (h.transGen_holds hname)

/-- Distinct shown subgraphs are no more than the registered ones. -/
theorem length_le_size_subgraphs (hnodup : names.Nodup) (hshown : ∀ n ∈ names, g.IsShown n) :
    names.length ≤ g.subgraphs.size := by
  have hsubset : names ⊆ g.subgraphs.keys := fun n hn =>
    OrdMap.mem_def.mp (isSubgraph_eq_true_iff.mp (hshown n hn).1)
  rw [← OrdMap.length_keys]
  exact (hnodup.subperm hsubset).length_le

/-- What goes wrong in a list of members goes wrong in the block of one of them. -/
theorem exists_expand_error_of_memberStmts
    {expand : String → Progress → Except Error (Stmt × Progress)}
    (h : memberStmts g expand names before = .error e) :
    ∃ name ∈ names, g.IsShown name ∧ ∃ before, expand name before = .error e := by
  induction names generalizing before with
  | nil => cases h
  | cons name rest ih =>
      have hrest : ∀ between, memberStmts g expand rest between = .error e →
          ∃ n ∈ name :: rest, g.IsShown n ∧ ∃ before, expand n before = .error e := by
        intro between hr
        obtain ⟨n, hn, hshown, hbefore⟩ := ih hr
        exact ⟨n, List.mem_cons_of_mem name hn, hshown, hbefore⟩
      rcases g.node?_or_isShown_or_not_isLive name with ⟨m, hm⟩ | hshown | hlive
      · rw [memberStmts_node hm, bind_eq_error_iff] at h
        rcases h with h | ⟨_, _, h⟩
        · exact hrest _ h
        · cases h
      · rw [memberStmts_shown hshown, bind_eq_error_iff] at h
        rcases h with h | ⟨b, _, h⟩
        · exact ⟨name, List.mem_cons_self, hshown, before, h⟩
        · rw [bind_eq_error_iff] at h
          rcases h with h | ⟨_, _, h⟩
          · exact hrest _ h
          · cases h
      · rw [memberStmts_skip hlive] at h
        exact hrest _ h

/-- An error in a block ends a trail below it: at a scope that the trail has passed, or where no
more levels may be opened. -/
theorem exists_trail_of_block_error (hshown : g.IsShown name) (hnodup : path.Nodup)
    (htrail : g.IsTrail (name :: path)) (h : block g limit room path name before = .error e) :
    ∃ n above, g.IsTrail (n :: (above ++ path)) ∧ (∀ x ∈ n :: above, g.IsShown x) ∧
      (above ++ path).Nodup ∧
      (n ∈ above ++ path ∧ e = .relationCycle n ∨
        n ∉ above ++ path ∧ above.length = room ∧ e = .nestingTooDeep n limit) := by
  induction room generalizing path name before with
  | zero =>
      refine ⟨name, [], htrail, List.forall_mem_singleton.mpr hshown, hnodup, ?_⟩
      rcases block_error_cases h with ⟨hpath, rfl⟩ | ⟨hpath, ⟨_, rfl⟩ | ⟨_, hzero, _⟩⟩
      · exact Or.inl ⟨hpath, rfl⟩
      · exact Or.inr ⟨hpath, rfl, rfl⟩
      · cases hzero
  | succ room ih =>
      rcases block_error_cases h with ⟨hpath, rfl⟩ | ⟨hpath, ⟨hzero, _⟩ | ⟨lower, hlower, herr⟩⟩
      · exact ⟨name, [], htrail, List.forall_mem_singleton.mpr hshown, hnodup,
          Or.inl ⟨hpath, rfl⟩⟩
      · cases hzero
      · cases hlower
        obtain ⟨child, hchild, hcshown, before, hblock⟩ := exists_expand_error_of_memberStmts herr
        have hnext : g.IsTrail (child :: name :: path) :=
          List.isChain_cons_cons.mpr ⟨⟨hchild, hcshown⟩, htrail⟩
        obtain ⟨n, above, ht, hs, hn, hend⟩ :=
          ih hcshown (List.nodup_cons.mpr ⟨hpath, hnodup⟩) hnext hblock
        have happend : above ++ name :: path = (above ++ [name]) ++ path := by simp
        rw [happend] at ht hn hend
        refine ⟨n, above ++ [name], ht, ?_, hn, ?_⟩
        · rw [← List.cons_append, List.forall_mem_append]
          exact ⟨hs, List.forall_mem_singleton.mpr hshown⟩
        · rcases hend with hcycle | ⟨hnew, hlength, heq⟩
          · exact Or.inl hcycle
          · exact Or.inr ⟨hnew, by simp [hlength], heq⟩

end DotModel.Graph
