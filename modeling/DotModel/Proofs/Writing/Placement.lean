import DotModel.Proofs.Writing.Course

/-!
# Placement

Where a walk puts the members of each scope.  In the scope that it goes along stand the live ones
of its names.  In a subgraph that it expands stand the live members of that subgraph.  In no other
scope does anything stand.  The first block of a subgraph has the body and the later ones are
mentions, so a scope is filled once.
-/

namespace DotModel

variable {g : Graph} {room limit : Nat} {path names expanded expanded' lost : List String}
  {places : List Place} {scope u : String}

namespace Graph

/-- The live ones of some names. -/
def live (g : Graph) (names : List String) : List String := names.filter fun n => g.IsLive n

@[simp] theorem live_nil : g.live [] = [] := rfl

theorem live_cons_of_live {name : String} (h : g.IsLive name) :
    g.live (name :: names) = name :: g.live names := by
  simp [live, h]

theorem live_cons_of_not_live {name : String} (h : ¬g.IsLive name) :
    g.live (name :: names) = g.live names := by
  simp [live, h]

theorem mem_live_iff {name : String} : name ∈ g.live names ↔ name ∈ names ∧ g.IsLive name := by
  simp [live]

theorem nodup_live (h : names.Nodup) : (g.live names).Nodup := h.sublist List.filter_sublist

namespace Walk

/-- A walk has a place for each live name, in their order. -/
theorem map_name (w : Walk g room path names expanded places expanded') :
    places.map Place.name = g.live names := by
  induction w with
  | nil => rfl
  | node hnode _ ih => rw [live_cons_of_live (Or.inl hnode), ← ih]; rfl
  | skip hlive _ ih => rw [live_cons_of_not_live hlive, ← ih]
  | mention hshown _ _ _ ih => rw [live_cons_of_live hshown.isLive, ← ih]; rfl
  | body hshown _ _ _ _ _ ihrest => rw [live_cons_of_live hshown.isLive, ← ihrest]; rfl

theorem length_places (w : Walk g room path names expanded places expanded') :
    places.length = (g.live names).length := by
  rw [← w.map_name, List.length_map]

/-- What stands in a scope: the live names, if the walk goes along it, and the live members, if it
expands it. -/
theorem partners_nestings (w : Walk g room path names expanded places expanded')
    (hscope : scope ∈ path) (p : String) :
    partners p (Place.nestingsAll scope places) =
      if p = scope then g.live names
      else if p ∈ expanded' ∧ p ∉ expanded then g.live (g.children p)
      else [] := by
  induction w generalizing scope with
  | nil => simp
  | @node _ _ name _ _ _ _ hnode _ ih =>
      rw [Place.nestingsAll_cons, partners_append, ih hscope, live_cons_of_live (Or.inl hnode)]
      by_cases hp : p = scope
      · simp [hp, Place.nestings, partners_cons]
      · simp [hp, Ne.symm hp, Place.nestings, partners_cons]
  | skip hlive _ ih => rw [ih hscope, live_cons_of_not_live hlive]
  | mention hshown _ _ _ ih =>
      rw [Place.nestingsAll_cons, partners_append, ih hscope, live_cons_of_live hshown.isLive]
      by_cases hp : p = scope
      · simp [hp, Place.nestings, partners_cons]
      · simp [hp, Ne.symm hp, Place.nestings, partners_cons]
  | @body room path name names expanded inside between places expanded' hshown hpath hnew inner
      rest ihinner ihrest =>
      have hinner := @ihinner name List.mem_cons_self
      -- An open scope is not expanded inside of the block, so the block adds nothing to it.
      have hclosed : ∀ {n}, n ∈ name :: path → ¬(n ∈ between ∧ n ∉ name :: expanded) :=
        fun hn h => (inner.isShown_of_mem h.1 h.2).2 hn
      rw [Place.nestingsAll_cons, partners_append, Place.nestings, partners_cons, hinner,
        ihrest hscope, live_cons_of_live hshown.isLive]
      by_cases hp : p = scope
      · subst hp
        have hne : p ≠ name := fun heq => hpath (heq ▸ hscope)
        rw [if_pos rfl, if_neg hne, if_neg (hclosed (List.mem_cons_of_mem name hscope)),
          if_pos rfl, if_pos rfl]
        rfl
      · rw [if_neg (Ne.symm hp), if_neg hp, if_neg hp]
        by_cases hpname : p = name
        · subst hpname
          have hbetween : p ∈ between := inner.subset List.mem_cons_self
          have hafter : p ∈ expanded' := rest.subset hbetween
          simp [hbetween, hafter, hnew]
        · have hcons : p ∈ name :: expanded ↔ p ∈ expanded := by simp [hpname]
          rw [if_neg hpname]
          simp only [hcons]
          by_cases hbetween : p ∈ between
          · have hafter : p ∈ expanded' := rest.subset hbetween
            simp [hbetween, hafter]
          · have hold : p ∉ expanded := fun h =>
              hbetween (inner.subset (List.mem_cons_of_mem name h))
            simp [hbetween, hold]

/-! ## Nodes and blocks -/

theorem isNode_of_mem_flatten (w : Walk g room path names expanded places expanded')
    (hu : .node u ∈ Place.flattenAll places) : g.isNode u = true := by
  induction w with
  | nil => cases hu
  | node hnode _ ih =>
      rcases List.mem_cons.mp hu with heq | hu
      · cases heq
        exact hnode
      · exact ih hu
  | skip _ _ ih => exact ih hu
  | mention _ _ _ _ ih =>
      rcases List.mem_cons.mp hu with heq | hu
      · cases heq
      · exact ih hu
  | body _ _ _ _ _ ihinner ihrest =>
      rcases List.mem_append.mp hu with hu | hu
      · rcases List.mem_cons.mp hu with heq | hu
        · cases heq
        · exact ihinner hu
      · exact ihrest hu

end Walk

end Graph

namespace Place

/-- The blocks of a subgraph, empty or not, in the order of the document. -/
def blocks (u : String) (places : List Place) : List Place :=
  (flattenAll places).filter (isBlockOf u)

@[simp] theorem blocks_nil : blocks u [] = [] := rfl

theorem flattenAll_append (places rest : List Place) :
    flattenAll (places ++ rest) = flattenAll places ++ flattenAll rest := by
  induction places with
  | nil => rfl
  | cons place places ih =>
      rw [List.cons_append, flattenAll_cons, flattenAll_cons, ih, List.append_assoc]

theorem blocks_append (places rest : List Place) :
    blocks u (places ++ rest) = blocks u places ++ blocks u rest := by
  rw [blocks, flattenAll_append, List.filter_append, blocks, blocks]

@[simp] theorem blocks_node (name : String) (rest : List Place) :
    blocks u (.node name :: rest) = blocks u rest := rfl

theorem blocks_mention (name : String) (rest : List Place) :
    blocks u (.mention name :: rest) =
      if name = u then .mention name :: blocks u rest else blocks u rest := by
  by_cases h : name = u <;> simp [blocks, flatten, isBlockOf, h]

theorem blocks_body (name : String) (inside rest : List Place) :
    blocks u (.body name inside :: rest) =
      if name = u then .body name inside :: (blocks u inside ++ blocks u rest)
      else blocks u inside ++ blocks u rest := by
  by_cases h : name = u <;> simp [blocks, flatten, isBlockOf, h]

end Place

namespace Graph.Walk

/-- A subgraph that has a block is expanded afterwards. -/
theorem blocks_eq_nil (w : Walk g room path names expanded places expanded')
    (hu : u ∉ expanded') : Place.blocks u places = [] := by
  induction w with
  | nil => rfl
  | node _ _ ih => rw [Place.blocks_node, ih hu]
  | skip _ _ ih => exact ih hu
  | @mention _ _ name _ _ _ _ _ _ hold rest ih =>
      have hne : name ≠ u := fun heq => hu (heq ▸ rest.subset hold)
      rw [Place.blocks_mention, if_neg hne, ih hu]
  | @body _ _ name _ _ _ between _ _ _ _ _ inner rest ihinner ihrest =>
      have hbetween : u ∉ between := fun h => hu (rest.subset h)
      have hne : name ≠ u := fun heq => hbetween (heq ▸ inner.subset List.mem_cons_self)
      rw [Place.blocks_body, if_neg hne, ihinner hbetween, ihrest hu]
      rfl

theorem eq_mention_of_mem_blocks (w : Walk g room path names expanded places expanded')
    (hu : u ∈ expanded) : ∀ b ∈ Place.blocks u places, b = .mention u := by
  induction w with
  | nil => simp
  | node _ _ ih => exact ih hu
  | skip _ _ ih => exact ih hu
  | @mention _ _ name _ _ _ _ _ _ _ _ ih =>
      rw [Place.blocks_mention]
      split
      · rename_i heq
        subst heq
        rw [List.forall_mem_cons]
        exact ⟨rfl, ih hu⟩
      · exact ih hu
  | @body _ _ name _ _ _ _ _ _ _ _ hnew inner rest ihinner ihrest =>
      have hne : name ≠ u := fun heq => hnew (heq ▸ hu)
      have hcons : u ∈ name :: _ := List.mem_cons_of_mem name hu
      rw [Place.blocks_body, if_neg hne, List.forall_mem_append]
      exact ⟨ihinner hcons, ihrest (inner.subset hcons)⟩

/-- The first block of a subgraph that a walk expands has the live members in their order, and the
later blocks are empty. -/
theorem exists_blocks_eq_cons (w : Walk g room path names expanded places expanded')
    (hnew : u ∉ expanded) (hu : u ∈ expanded') :
    ∃ inside later, Place.blocks u places = .body u inside :: later ∧
      inside.map Place.name = g.live (g.children u) ∧ ∀ b ∈ later, b = .mention u := by
  induction w with
  | nil => exact absurd hu hnew
  | node _ _ ih => exact ih hnew hu
  | skip _ _ ih => exact ih hnew hu
  | @mention _ _ name _ _ _ _ _ _ hold _ ih =>
      have hne : name ≠ u := fun heq => hnew (heq ▸ hold)
      rw [Place.blocks_mention, if_neg hne]
      exact ih hnew hu
  | @body _ _ name _ expanded inside between places _ _ _ _ inner rest ihinner ihrest =>
      rw [Place.blocks_body]
      by_cases hname : name = u
      · subst hname
        have hopen : name ∈ name :: expanded := List.mem_cons_self
        refine ⟨inside, Place.blocks name inside ++ Place.blocks name places, if_pos rfl,
          inner.map_name, ?_⟩
        rw [List.forall_mem_append]
        exact ⟨inner.eq_mention_of_mem_blocks hopen,
          rest.eq_mention_of_mem_blocks (inner.subset hopen)⟩
      · rw [if_neg hname]
        by_cases hbetween : u ∈ between
        · have hcons : u ∉ name :: expanded := by simp [Ne.symm hname, hnew]
          obtain ⟨inside', later, hblocks, hmembers, hlater⟩ := ihinner hcons hbetween
          refine ⟨inside', later ++ Place.blocks u places, ?_, hmembers, ?_⟩
          · rw [hblocks, List.cons_append]
          · rw [List.forall_mem_append]
            exact ⟨hlater, rest.eq_mention_of_mem_blocks hbetween⟩
        · rw [inner.blocks_eq_nil hbetween, List.nil_append]
          exact ihrest hbetween hu

end Graph.Walk

/-! ## The whole of a graph -/

namespace Graph

namespace Course

theorem mem_expanded_iff (c : Course g limit lost places expanded) :
    u ∈ expanded ↔ g.IsShown u :=
  ⟨fun hu => (c.walk.isShown_of_mem hu List.not_mem_nil).1, c.complete u⟩

theorem live_names (c : Course g limit lost places expanded) :
    g.live (g.children g.name ++ lost) = g.live (g.children g.name) ++ lost := by
  have hlost : g.live lost = lost := by
    rw [live, List.filter_eq_self]
    intro n hn
    exact decide_eq_true ((c.mem_lost n).mp hn).1
  calc
    g.live (g.children g.name ++ lost) = g.live (g.children g.name) ++ g.live lost :=
      List.filter_append ..
    _ = g.live (g.children g.name) ++ lost := by rw [hlost]

/-- In the graph's own scope stand its live members and the loose ones, in every other shown scope
its live members. -/
theorem partners_nestings (c : Course g limit lost places expanded) (p : String) :
    partners p (Place.nestingsAll g.name places) =
      if p = g.name then g.live (g.children g.name) ++ lost
      else if g.IsShown p then g.live (g.children p)
      else [] := by
  rw [c.walk.partners_nestings List.mem_cons_self, c.live_names]
  simp only [c.mem_expanded_iff, List.not_mem_nil, not_false_eq_true, and_true]

theorem mem_nestings_iff (c : Course g limit lost places expanded) {p n : String} :
    (p, n) ∈ Place.nestingsAll g.name places ↔
      g.IsLive n ∧
        (g.IsShownScope p ∧ n ∈ g.children p ∨ p = g.name ∧ g.IsLoose n) := by
  rw [← mem_partners_iff, c.partners_nestings]
  by_cases hp : p = g.name
  · subst hp
    have hscope : g.IsShownScope g.name := Or.inl rfl
    rw [if_pos rfl, List.mem_append, mem_live_iff, c.mem_lost]
    tauto
  · rw [if_neg hp]
    by_cases hshown : g.IsShown p
    · simp [hshown, hp, IsShownScope, mem_live_iff, and_comm]
    · simp [hshown, hp, IsShownScope]

theorem nodup_nestings (c : Course g limit lost places expanded) :
    (Place.nestingsAll g.name places).Nodup := by
  apply nodup_of_nodup_partners
  intro p
  rw [c.partners_nestings]
  split
  · rw [List.nodup_append]
    refine ⟨nodup_live (g.relations.nodup_children g.name), c.nodup_lost, ?_⟩
    rintro n hn _ hlost rfl
    exact ((c.mem_lost n).mp hlost).2 g.name (Or.inl rfl) (mem_live_iff.mp hn).1
  · split
    · exact nodup_live (g.relations.nodup_children p)
    · exact List.nodup_nil

end Course

end Graph

end DotModel
