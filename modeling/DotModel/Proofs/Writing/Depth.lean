import DotModel.Proofs.Writing.Cycles

/-!
# Levels of blocks

How deep the blocks of a document stand in each other, and how many levels must be allowed for it.
Whether there is a level left is only looked at before a body is written.  A subgraph that was
expanded before gets its empty block without that, so such a block may stand one level below the
last one that the settings allow.

A graph that is written under some limit needs a certain number of levels.  From there on the
document is always the same, and below it the graph is refused as too deep.
-/

namespace DotModel

namespace Stmt

mutual

/-- The number of levels of blocks in a statement. -/
def depth : Stmt → Nat
  | .subgraph _ _ body => depths body + 1
  | .attr _ | .node _ | .edge _ => 0

/-- The number of levels of blocks in a body. -/
def depths : List Stmt → Nat
  | [] => 0
  | s :: rest => max (depth s) (depths rest)

end

theorem depths_append (stmts rest : List Stmt) :
    depths (stmts ++ rest) = max (depths stmts) (depths rest) := by
  induction stmts with
  | nil => simp [depths]
  | cons s stmts ih => rw [List.cons_append, depths, depths, ih, Nat.max_assoc]

theorem depths_map_eq_zero {α : Type} {f : α → Stmt} (h : ∀ x, depth (f x) = 0)
    (xs : List α) : depths (xs.map f) = 0 := by
  induction xs with
  | nil => rfl
  | cons x rest ih => rw [List.map_cons, depths, h x, ih, Nat.max_self]

end Stmt

/-- The number of levels of blocks in a document; a block at the top level is at the first. -/
def Document.depth (doc : Document) : Nat := Stmt.depths doc.stmts

namespace Place

mutual

/-- The number of levels of bodies at a place; a mention has none. -/
def bodyDepth : Place → Nat
  | .body _ inside => bodyDepths inside + 1
  | .node _ | .mention _ => 0

/-- The number of levels of bodies in a list of places. -/
def bodyDepths : List Place → Nat
  | [] => 0
  | place :: rest => max (bodyDepth place) (bodyDepths rest)

end

@[simp] theorem bodyDepths_nil : bodyDepths [] = 0 := rfl

@[simp] theorem bodyDepths_cons (place : Place) (rest : List Place) :
    bodyDepths (place :: rest) = max (bodyDepth place) (bodyDepths rest) := rfl

@[simp] theorem bodyDepth_node (name : String) : bodyDepth (.node name) = 0 := rfl

@[simp] theorem bodyDepth_mention (name : String) : bodyDepth (.mention name) = 0 := rfl

@[simp] theorem bodyDepth_body (name : String) (inside : List Place) :
    bodyDepth (.body name inside) = bodyDepths inside + 1 := rfl

theorem bodyDepths_append (places rest : List Place) :
    bodyDepths (places ++ rest) = max (bodyDepths places) (bodyDepths rest) := by
  induction places with
  | nil => simp
  | cons place places ih =>
      rw [List.cons_append, bodyDepths_cons, bodyDepths_cons, ih, Nat.max_assoc]

mutual

/-- The empty blocks of mentions reach at most one level below the bodies. -/
theorem depth_toStmt_le (g : Graph) (place : Place) :
    (toStmt g place).depth ≤ bodyDepth place + 1 :=
  match place with
  | .node _ => Nat.zero_le _
  | .mention _ => Nat.le_refl _
  | .body _ inside => Nat.succ_le_succ (depths_toStmts_le g inside)

theorem depths_toStmts_le (g : Graph) (places : List Place) :
    Stmt.depths (toStmts g places) ≤ bodyDepths places + 1 :=
  match places with
  | [] => Nat.zero_le _
  | place :: rest => by
      have hplace := depth_toStmt_le g place
      have hrest := depths_toStmts_le g rest
      rw [toStmts_cons, Stmt.depths, bodyDepths_cons]
      omega

end

mutual

/-- Without mentions the levels are those of the bodies. -/
theorem depth_toStmt_eq (g : Graph) (place : Place) (h : ∀ u, .mention u ∉ flatten place) :
    (toStmt g place).depth = bodyDepth place :=
  match place with
  | .node _ => rfl
  | .mention name => absurd List.mem_cons_self (h name)
  | .body _ inside =>
    congrArg (· + 1) (depths_toStmts_eq g inside fun u hu => h u (List.mem_cons_of_mem _ hu))

theorem depths_toStmts_eq (g : Graph) (places : List Place)
    (h : ∀ u, .mention u ∉ flattenAll places) :
    Stmt.depths (toStmts g places) = bodyDepths places :=
  match places with
  | [] => rfl
  | place :: rest => by
      simp only [flattenAll_cons, List.mem_append, not_or] at h
      rw [toStmts_cons, Stmt.depths, depth_toStmt_eq g place fun u => (h u).1,
        depths_toStmts_eq g rest fun u => (h u).2, bodyDepths_cons]

end

end Place

namespace Graph

variable {g : Graph} {s : Settings} {limit room lower : Nat}
  {path names expanded expanded' : List String} {places : List Place} {name : String}
  {before after : Progress}

/-! ## The levels that a walk needs -/

/-- The levels left over do not matter to a walk, as long as its bodies have enough of them. -/
theorem Walk.withRoom (w : Walk g room path names expanded places expanded')
    (h : Place.bodyDepths places ≤ lower) :
    Walk g lower path names expanded places expanded' := by
  induction w generalizing lower with
  | nil => exact .nil
  | node hnode _ ih => exact .node hnode (ih (le_of_max_le_right h))
  | skip hlive _ ih => exact .skip hlive (ih h)
  | mention hshown hpath hold _ ih =>
      exact .mention hshown hpath hold (ih (le_of_max_le_right h))
  | body hshown hpath hnew _ _ ihinner ihrest =>
      have hinside := le_of_max_le_left h
      cases lower with
      | zero => exact absurd hinside (Nat.not_succ_le_zero _)
      | succ lower =>
          exact .body hshown hpath hnew (ihinner (Nat.le_of_succ_le_succ hinside))
            (ihrest (le_of_max_le_right h))

/-- With fewer levels than the bodies of a walk need, writing is refused. -/
theorem Walk.exists_nestingTooDeep (w : Walk g room path names expanded places expanded')
    (h : lower < Place.bodyDepths places) (limit : Nat) (written : List String) :
    ∃ n, memberStmts g (block g limit lower path) names ⟨expanded, written⟩ =
      .error (.nestingTooDeep n limit) := by
  induction w generalizing lower written with
  | nil => exact absurd h (Nat.not_lt_zero lower)
  | node hnode _ ih =>
      obtain ⟨m, hm⟩ := exists_node?_of_isNode hnode
      rw [Place.bodyDepths_cons, Place.bodyDepth_node, Nat.zero_max] at h
      obtain ⟨n, hn⟩ := ih h (m.name :: written)
      exact ⟨n, by rw [memberStmts_node hm, Progress.write, hn, error_bind]⟩
  | skip hlive _ ih =>
      rw [memberStmts_skip hlive]
      exact ih h written
  | mention hshown hpath hold _ ih =>
      rw [Place.bodyDepths_cons, Place.bodyDepth_mention, Nat.zero_max] at h
      obtain ⟨n, hn⟩ := ih h written
      rw [memberStmts_shown hshown, block_of_mem_expanded hpath hold, ok_bind]
      exact ⟨n, by rw [hn, error_bind]⟩
  | @body _ _ name _ _ inside _ _ _ hshown hpath hnew inner _ ihinner ihrest =>
      rw [Place.bodyDepths_cons, Place.bodyDepth_body] at h
      rw [memberStmts_shown hshown]
      cases lower with
      | zero => exact ⟨name, by rw [block_zero hpath hnew, error_bind]⟩
      | succ lower =>
          rw [block_succ hpath hnew, Progress.expand]
          -- What has too few levels is either the body, or the members after it.
          by_cases hinside : lower < Place.bodyDepths inside
          · obtain ⟨n, hn⟩ := ihinner hinside written
            exact ⟨n, by rw [hn, error_bind, error_bind]⟩
          · have hrest := (lt_max_iff.mp h).resolve_left fun hbody => hinside (by omega)
            have hbody := (inner.withRoom (not_lt.mp hinside)).memberStmts_eq limit written
            obtain ⟨n, hn⟩ := ihrest hrest (Place.writtenAll g inside ++ written)
            exact ⟨n, by rw [hbody, ok_bind, ok_bind, hn, error_bind]⟩

/-! ## Steps that need levels -/

/-- A step that gives `a` if at least `need` levels are allowed, and is refused as too deep if there
are fewer. -/
structure NeedsLevels {α : Type} (step : Nat → Except Error α) (need : Nat) (a : α) :
    Prop where
  enough : ∀ limit, need ≤ limit → step limit = .ok a
  tooFew : ∀ limit, limit < need → ∃ n, step limit = .error (.nestingTooDeep n limit)

namespace NeedsLevels

variable {α β : Type} {step : Nat → Except Error α} {need need' : Nat} {a : α} {b : β}

theorem const (a : α) : NeedsLevels (fun _ => .ok a) 0 a where
  enough := fun _ _ => rfl
  tooFew := fun limit h => absurd h (Nat.not_lt_zero limit)

theorem bind {next : Nat → α → Except Error β} (hstep : NeedsLevels step need a)
    (hnext : NeedsLevels (fun limit => next limit a) need' b) :
    NeedsLevels (fun limit => step limit >>= next limit) (max need need') b where
  enough := by
    intro limit h
    rw [hstep.enough limit (le_of_max_le_left h), ok_bind]
    exact hnext.enough limit (le_of_max_le_right h)
  tooFew := by
    intro limit h
    by_cases hfirst : limit < need
    · obtain ⟨n, hn⟩ := hstep.tooFew limit hfirst
      exact ⟨n, by rw [hn, error_bind]⟩
    · rw [hstep.enough limit (not_lt.mp hfirst), ok_bind]
      exact hnext.tooFew limit ((lt_max_iff.mp h).resolve_left hfirst)

theorem map (hstep : NeedsLevels step need a) (f : α → β) :
    NeedsLevels (fun limit => step limit >>= fun a => .ok (f a)) need (f a) := by
  have h : NeedsLevels (fun limit => step limit >>= fun a => .ok (f a)) (max need 0) (f a) :=
    hstep.bind (.const (f a))
  rwa [Nat.max_zero] at h

/-- A step that succeeds has the levels it needs. -/
theorem le_of_eq_ok {r : α} (h : NeedsLevels step need a) (hok : step limit = .ok r) :
    need ≤ limit := by
  by_contra hless
  obtain ⟨n, hn⟩ := h.tooFew limit (not_le.mp hless)
  rw [hn] at hok
  cases hok

end NeedsLevels

theorem Walk.needsLevels (w : Walk g room path names before.expanded places after.expanded)
    (hwritten : after.written = Place.writtenAll g places ++ before.written) :
    NeedsLevels (fun limit => memberStmts g (block g limit limit path) names before)
      (Place.bodyDepths places) (Place.toStmts g places, after) where
  enough := fun _ h => memberStmts_eq_ok_iff.mpr ⟨places, w.withRoom h, rfl, hwritten⟩
  tooFew := fun limit h => w.exists_nestingTooDeep h limit before.written

/-! ## The levels that a document needs -/

theorem exists_needsLevels_of_block {stmt : Stmt} (hshown : g.IsShown name)
    (h : block g limit room path name before = .ok (stmt, after)) :
    ∃ place, stmt = place.toStmt g ∧
      NeedsLevels (fun limit => block g limit limit path name before) (Place.bodyDepth place)
        (stmt, after) := by
  obtain ⟨place, w, rfl, hwritten⟩ := exists_walk_of_block hshown h
  have hneeds := w.needsLevels hwritten
  have hsingle : ∀ limit, memberStmts g (block g limit limit path) [name] before =
      block g limit limit path name before >>= fun b => .ok ([b.1], b.2) := fun _ =>
    memberStmts_shown hshown
  refine ⟨place, rfl, ?_, ?_⟩
  · intro limit hlimit
    have hok := hneeds.enough limit (by simpa using hlimit)
    rw [hsingle, bind_eq_ok_iff] at hok
    obtain ⟨⟨stmt, after⟩, hb, heq⟩ := hok
    cases heq
    exact hb
  · intro limit hlimit
    obtain ⟨n, hn⟩ := hneeds.tooFew limit (by simpa using hlimit)
    rw [hsingle, bind_eq_error_iff] at hn
    rcases hn with hn | ⟨_, _, hn⟩
    · exact ⟨n, hn⟩
    · cases hn

theorem exists_needsLevels_of_pendingBlocks {heldBack : List String → String → Bool}
    {stmts : List Stmt}
    (h : g.pendingBlocks limit heldBack names before = .ok (stmts, after)) :
    ∃ places, stmts = Place.toStmts g places ∧
      NeedsLevels (fun limit => g.pendingBlocks limit heldBack names before)
        (Place.bodyDepths places) (stmts, after) := by
  induction names generalizing before stmts with
  | nil =>
      cases h
      exact ⟨[], rfl, .const _⟩
  | cons name names ih =>
      rcases pendingBlocks_ok_cases h with
        ⟨hturn, top, between, rest, htop, hrest, rfl⟩ | ⟨hturn, hrest⟩
      · obtain ⟨place, rfl, hplace⟩ := exists_needsLevels_of_block (isShown_of_turn hturn) htop
        obtain ⟨places, rfl, hplaces⟩ := ih hrest
        simp only [pendingBlocks_turn hturn]
        exact ⟨place :: places, rfl, hplace.bind (hplaces.map _)⟩
      · simp only [pendingBlocks_skip hturn]
        exact ih hrest

theorem exists_needsLevels_of_orphanBlocks {stmts : List Stmt}
    (h : g.orphanBlocks limit before = .ok (stmts, after)) :
    ∃ places, stmts = Place.toStmts g places ∧
      NeedsLevels (fun limit => g.orphanBlocks limit before) (Place.bodyDepths places)
        (stmts, after) := by
  obtain ⟨first, between, second, hfirst, hsecond, rfl⟩ := orphanBlocks_ok_cases h
  obtain ⟨places, rfl, hplaces⟩ := exists_needsLevels_of_pendingBlocks hfirst
  obtain ⟨places', rfl, hplaces'⟩ := exists_needsLevels_of_pendingBlocks hsecond
  refine ⟨places ++ places', (Place.toStmts_append g places places').symm, ?_⟩
  rw [Place.bodyDepths_append]
  exact hplaces.bind (hplaces'.map _)

theorem exists_needsLevels_of_outline {o : Outline} (h : g.outline s = .ok o) :
    ∃ (layout : List Place) (lost : List Member),
      o.stmts =
        (attrStmts g.name g.attrs).map .attr ++ Place.toStmts g layout ++ lost.map nodeStmt ∧
      NeedsLevels (fun limit => g.outline { s with maxDepth := limit }) (Place.bodyDepths layout)
        o := by
  have hroot : ∀ {members between}, g.rootStmts s.maxDepth = .ok (members, between) →
      ∃ places, members = Place.toStmts g places ∧
        NeedsLevels g.rootStmts (Place.bodyDepths places) (members, between) := by
    intro members between hr
    obtain ⟨places, w, rfl, hwritten⟩ := memberStmts_eq_ok_iff.mp hr
    exact ⟨places, rfl, w.needsLevels hwritten⟩
  cases hs : s.emitOrphans with
  | true =>
      obtain ⟨members, between, blocks, after, hmembers, hblocks, rfl⟩ :=
        outline_ok_cases_of_orphans hs h
      obtain ⟨places, rfl, hplaces⟩ := hroot hmembers
      obtain ⟨places', rfl, hplaces'⟩ := exists_needsLevels_of_orphanBlocks hblocks
      obtain ⟨lost, hlost⟩ :
          ∃ lost : List Member, g.orphanNodes after.written = lost.map nodeStmt := ⟨_, rfl⟩
      refine ⟨places ++ places', lost, ?_, ?_⟩
      · rw [Place.toStmts_append, ← List.append_assoc, ← hlost]
        rfl
      · simp only [outline_eq_of_orphans]
        rw [Place.bodyDepths_append]
        exact hplaces.bind (hplaces'.map _)
  | false =>
      obtain ⟨members, after, hmembers, rfl⟩ := outline_ok_cases_of_no_orphans hs h
      obtain ⟨places, rfl, hplaces⟩ := hroot hmembers
      refine ⟨places, [], ?_, ?_⟩
      · rw [Outline.stmts, List.append_nil]
        rfl
      · simp only [outline_eq_of_no_orphans]
        exact hplaces.map _

/-- The bodies of a document stand at no more levels than the settings allow, and its blocks at no
more than one further level.  There are blocks at that level only if the bodies use up all levels
and a subgraph is mentioned again.  As many levels as the bodies have are needed: with fewer the
graph is refused as too deep, and from there on the document is always the same. -/
theorem exists_levels_of_toDocument {doc : Document} (h : g.toDocument s = .ok doc) :
    ∃ (layout : List Place) (lost : List Member) (edges : List EdgeStmt),
      doc.stmts =
        (attrStmts g.name g.attrs).map .attr ++ Place.toStmts g layout ++ lost.map nodeStmt ++
          edges.map .edge ∧
      doc.depth = Stmt.depths (Place.toStmts g layout) ∧
      Place.bodyDepths layout ≤ s.maxDepth ∧ doc.depth ≤ s.maxDepth + 1 ∧
      (s.maxDepth < doc.depth →
        Place.bodyDepths layout = s.maxDepth ∧ ∃ u, .mention u ∈ Place.flattenAll layout) ∧
      NeedsLevels (fun limit => g.toDocument { s with maxDepth := limit })
        (Place.bodyDepths layout) doc := by
  obtain ⟨o, edges, ho, hedges, rfl⟩ := toDocument_ok_cases h
  obtain ⟨layout, lost, hstmts, hneeds⟩ := exists_needsLevels_of_outline ho
  have hlevels : NeedsLevels (fun limit => g.toDocument { s with maxDepth := limit })
      (Place.bodyDepths layout) ⟨g.header, o.stmts ++ edges.map .edge⟩ := by
    simp only [toDocument_eq, hedges, ok_bind]
    exact hneeds.map _
  have hle : Place.bodyDepths layout ≤ s.maxDepth := hlevels.le_of_eq_ok h
  have hdepth : Document.depth ⟨g.header, o.stmts ++ edges.map .edge⟩ =
      Stmt.depths (Place.toStmts g layout) := by
    have hattrs : Stmt.depths ((attrStmts g.name g.attrs).map .attr) = 0 :=
      Stmt.depths_map_eq_zero (fun _ => rfl) _
    have hlost : Stmt.depths (lost.map nodeStmt) = 0 := Stmt.depths_map_eq_zero (fun _ => rfl) _
    have hedge : Stmt.depths (edges.map .edge) = 0 := Stmt.depths_map_eq_zero (fun _ => rfl) _
    simp only [Document.depth, hstmts, Stmt.depths_append, hattrs, hlost, hedge, Nat.zero_max,
      Nat.max_zero]
  have hbound := Place.depths_toStmts_le g layout
  refine ⟨layout, lost, edges, ?_, hdepth, hle, ?_, ?_, hlevels⟩
  · rw [hstmts]
  · omega
  · intro hless
    refine ⟨by omega, ?_⟩
    by_contra hmentions
    rw [not_exists] at hmentions
    rw [hdepth, Place.depths_toStmts_eq g layout hmentions] at hless
    exact absurd hle (not_le.mpr hless)

/-- A subgraph that stands in the graph's own scope and in a later subgraph. -/
def sharedBelow : Graph :=
  empty.performAll [.setName "G", .addSubgraph "G" "a" ∅, .addSubgraph "G" "b" ∅,
    .addSubgraph "b" "a" ∅]

theorem sharedBelow_levels :
    ∃ doc, sharedBelow.toDocument { maxDepth := 1 } = .ok doc ∧
      ∃ need ≤ 1, doc.depth ≤ 2 ∧
        NeedsLevels (fun limit => sharedBelow.toDocument { maxDepth := limit }) need doc := by
  have hwritten : (sharedBelow.toDocument { maxDepth := 1 }).isOk = true := by decide +kernel
  obtain ⟨doc, h⟩ := exists_eq_ok_of_isOk hwritten
  obtain ⟨layout, _, _, -, -, hneed, hdepth, -, hlevels⟩ := exists_levels_of_toDocument h
  exact ⟨doc, h, _, hneed, hdepth, hlevels⟩

/-- The limit does not bound all blocks: the second block of `a` is below the only level allowed. -/
theorem sharedBelow_exceeds_limit :
    sharedBelow.Reachable ∧
      ∃ doc, sharedBelow.toDocument { maxDepth := 1 } = .ok doc ∧ ¬doc.depth ≤ 1 := by
  have hreachable : sharedBelow.Reachable := ⟨_, rfl⟩
  have hwritten : (sharedBelow.toDocument { maxDepth := 1 }).isOk = true := by decide +kernel
  obtain ⟨doc, h⟩ := exists_eq_ok_of_isOk hwritten
  have hdepth : (sharedBelow.toDocument { maxDepth := 1 }).map Document.depth = .ok 2 := rfl
  rw [h] at hdepth
  have htwo : doc.depth = 2 := Except.ok.inj hdepth
  exact ⟨hreachable, doc, h, by omega⟩

end Graph

end DotModel
