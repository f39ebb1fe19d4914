import DotModel.Proofs.Writing.Walk

/-!
# Finished subgraphs

A subgraph is finished if it is expanded and no longer open.  Finished subgraphs contain finished
subgraphs only, and none of them contains itself.  A walk keeps this: when it closes a subgraph,
everything below is finished, and the subgraph itself, which was open, is not below.
-/

namespace DotModel.Graph

open Relation

variable {g : Graph} {room : Nat} {path names expanded expanded' : List String}
  {name : String} {places : List Place}

namespace Walk

theorem subset (w : Walk g room path names expanded places expanded') :
    expanded ⊆ expanded' := by
  induction w with
  | nil => exact List.Subset.refl _
  | node _ _ ih => exact ih
  | skip _ _ ih => exact ih
  | mention _ _ _ _ ih => exact ih
  | body _ _ _ _ _ ihinner ihrest =>
      exact fun _ hn => ihrest (ihinner (List.mem_cons_of_mem _ hn))

/-- What a walk expands are shown subgraphs that are not open. -/
theorem isShown_of_mem (w : Walk g room path names expanded places expanded') {n : String}
    (hn : n ∈ expanded') (hnew : n ∉ expanded) : g.IsShown n ∧ n ∉ path := by
  induction w with
  | nil => exact absurd hn hnew
  | node _ _ ih => exact ih hn hnew
  | skip _ _ ih => exact ih hn hnew
  | mention _ _ _ _ ih => exact ih hn hnew
  | @body room path name names expanded inside between places expanded' hshown hpath _ _ _
      ihinner ihrest =>
      by_cases hbetween : n ∈ between
      · by_cases hname : n = name
        · exact hname ▸ ⟨hshown, hpath⟩
        · have hcons : n ∉ name :: expanded := by simp [hname, hnew]
          obtain ⟨hs, hp⟩ := ihinner hbetween hcons
          exact ⟨hs, fun h => hp (List.mem_cons_of_mem name h)⟩
      · exact ihrest hn hbetween

theorem forall_isShown (w : Walk g room path names expanded places expanded')
    (h : ∀ n ∈ expanded, g.IsShown n) : ∀ n ∈ expanded', g.IsShown n := by
  intro n hn
  by_cases hold : n ∈ expanded
  · exact h n hold
  · exact (w.isShown_of_mem hn hold).1

/-- When two walks have expanded every shown subgraph, they have expanded nothing else. -/
theorem isShown_iff {room' : Nat} {path' names' : List String} {places' : List Place}
    (w : Walk g room path names [] places expanded)
    (w' : Walk g room' path' names' expanded places' expanded')
    (hall : ∀ n, g.IsShown n → n ∈ expanded') (n : String) : g.IsShown n ↔ n ∈ expanded' :=
  ⟨hall n, w'.forall_isShown (w.forall_isShown (by simp)) n⟩

/-- The subgraphs along a walk are expanded after it, and were not open. -/
theorem mem_of_mem_names (w : Walk g room path names expanded places expanded') {n : String}
    (hn : n ∈ names) (hshown : g.IsShown n) : n ∈ expanded' ∧ n ∉ path := by
  induction w with
  | nil => cases hn
  | @node _ _ name _ _ _ _ hnode _ ih =>
      rcases List.mem_cons.mp hn with rfl | hn
      · exact absurd hnode hshown.not_isNode
      · exact ih hn
  | skip hlive _ ih =>
      rcases List.mem_cons.mp hn with rfl | hn
      · exact absurd hshown.isLive hlive
      · exact ih hn
  | mention _ hpath hold rest ih =>
      rcases List.mem_cons.mp hn with rfl | hn
      · exact ⟨rest.subset hold, hpath⟩
      · exact ih hn
  | body _ hpath _ inner rest _ ih =>
      rcases List.mem_cons.mp hn with rfl | hn
      · exact ⟨rest.subset (inner.subset List.mem_cons_self), hpath⟩
      · exact ih hn

/-- What a walk expands stands on its list or in a subgraph. -/
theorem mem_names_or_holds (w : Walk g room path names expanded places expanded') {n : String}
    (hn : n ∈ expanded') (hnew : n ∉ expanded) :
    n ∈ names ∨ ∃ p, g.IsShown p ∧ g.Holds p n := by
  induction w with
  | nil => exact absurd hn hnew
  | node _ _ ih => exact (ih hn hnew).imp_left (List.mem_cons_of_mem _)
  | skip _ _ ih => exact (ih hn hnew).imp_left (List.mem_cons_of_mem _)
  | mention _ _ _ _ ih => exact (ih hn hnew).imp_left (List.mem_cons_of_mem _)
  | @body room path name names expanded inside between places expanded' hshown _ _ inner _
      ihinner ihrest =>
      by_cases hbetween : n ∈ between
      · by_cases hname : n = name
        · exact Or.inl (hname ▸ List.mem_cons_self)
        · have hcons : n ∉ name :: expanded := by simp [hname, hnew]
          rcases ihinner hbetween hcons with hchild | hheld
          · exact Or.inr ⟨name, hshown, hchild, (inner.isShown_of_mem hbetween hcons).1⟩
          · exact Or.inr hheld
      · exact (ihrest hn hbetween).imp_left (List.mem_cons_of_mem name)

end Walk

/-- The finished subgraphs contain finished subgraphs only, and none contains itself. -/
structure Finished (g : Graph) (path expanded : List String) : Prop where
  closed : ∀ {p c}, p ∈ expanded → p ∉ path → g.Holds p c → c ∈ expanded ∧ c ∉ path
  acyclic : ∀ {p}, p ∈ expanded → p ∉ path → ¬g.OnCycle p

namespace Finished

theorem nil : Finished g path [] where
  closed h := by cases h
  acyclic h := by cases h

theorem reflTransGen (h : Finished g path expanded) {a b : String} (ha : a ∈ expanded)
    (hopen : a ∉ path) (hab : ReflTransGen g.Holds a b) : b ∈ expanded ∧ b ∉ path := by
  induction hab with
  | refl => exact ⟨ha, hopen⟩
  | tail _ hstep ih => exact h.closed ih.1 ih.2 hstep

theorem of_disjoint (h : Finished g path expanded) (hdisj : ∀ n ∈ expanded, n ∉ path) :
    Finished g [] expanded where
  closed hp _ hstep := ⟨(h.closed hp (hdisj _ hp) hstep).1, List.not_mem_nil⟩
  acyclic hp _ := h.acyclic hp (hdisj _ hp)

theorem cons_open (h : Finished g path expanded) (hnew : name ∉ expanded) :
    Finished g (name :: path) (name :: expanded) where
  closed := by
    intro p c hp hopen hstep
    rw [List.mem_cons, not_or] at hopen
    have hold : p ∈ expanded := (List.mem_cons.mp hp).resolve_left hopen.1
    obtain ⟨hc, hcopen⟩ := h.closed hold hopen.2 hstep
    refine ⟨List.mem_cons_of_mem name hc, ?_⟩
    rw [List.mem_cons, not_or]
    exact ⟨fun hcn => hnew (hcn ▸ hc), hcopen⟩
  acyclic := by
    intro p hp hopen
    rw [List.mem_cons, not_or] at hopen
    exact h.acyclic ((List.mem_cons.mp hp).resolve_left hopen.1) hopen.2

/-- A subgraph may be closed when all of its subgraphs are finished. -/
theorem close (h : Finished g (name :: path) expanded)
    (hchildren : ∀ c, g.Holds name c → c ∈ expanded ∧ c ∉ name :: path) :
    Finished g path expanded where
  closed := by
    intro p c hp hopen hstep
    have hc : c ∈ expanded ∧ c ∉ name :: path := by
      by_cases hpn : p = name
      · exact hchildren c (hpn ▸ hstep)
      · exact h.closed hp (by simp [hpn, hopen]) hstep
    exact ⟨hc.1, fun hmem => hc.2 (List.mem_cons_of_mem name hmem)⟩
  acyclic := by
    intro p hp hopen hcycle
    by_cases hpn : p = name
    · subst hpn
      obtain ⟨c, hstep, hback⟩ := TransGen.head'_iff.mp (onCycle_iff.mp hcycle)
      obtain ⟨hc, hcopen⟩ := hchildren c hstep
      exact (h.reflTransGen hc hcopen hback).2 List.mem_cons_self
    · exact h.acyclic hp (by simp [hpn, hopen]) hcycle

theorem not_onCycle (h : Finished g path expanded)
    (hall : ∀ n, g.IsShown n → n ∈ expanded ∧ n ∉ path) (n : String) : ¬g.OnCycle n := by
  intro hcycle
  obtain ⟨hn, hopen⟩ := hall n hcycle.isShown
  exact h.acyclic hn hopen hcycle

end Finished

theorem Walk.finished (w : Walk g room path names expanded places expanded')
    (h : Finished g path expanded) : Finished g path expanded' := by
  induction w with
  | nil => exact h
  | node _ _ ih => exact ih h
  | skip _ _ ih => exact ih h
  | mention _ _ _ _ ih => exact ih h
  | body _ _ hnew inner _ ihinner ihrest =>
      have hbetween := ihinner (h.cons_open hnew)
      exact ihrest (hbetween.close fun c hstep => inner.mem_of_mem_names hstep.1 hstep.2)

end DotModel.Graph
