import DotModel.Proofs.Writing.Place
import DotModel.Proofs.Writing.Steps

/-!
# Walks

A *walk* is the course of a writing that succeeds: the members of a list one after the other, a
subgraph that is met for the first time with everything below it.  Writing a list of members
succeeds exactly if there is a walk along it.  Then its statements are those of the places that the
walk passes, and it has written the nodes that stand there.
-/

namespace DotModel.Graph

/-- A walk along `names` inside the scopes of `path`, with `room` more levels to open, from the
subgraphs that are expanded before it to those that are expanded after it. -/
inductive Walk (g : Graph) :
    Nat → List String → List String → List String → List Place → List String → Prop where
  | nil {room path expanded} : Walk g room path [] expanded [] expanded
  | node {room path name names expanded places expanded'}
      (hnode : g.isNode name = true)
      (rest : Walk g room path names expanded places expanded') :
      Walk g room path (name :: names) expanded (.node name :: places) expanded'
  | skip {room path name names expanded places expanded'}
      (hlive : ¬g.IsLive name)
      (rest : Walk g room path names expanded places expanded') :
      Walk g room path (name :: names) expanded places expanded'
  | mention {room path name names expanded places expanded'}
      (hshown : g.IsShown name) (hpath : name ∉ path) (hold : name ∈ expanded)
      (rest : Walk g room path names expanded places expanded') :
      Walk g room path (name :: names) expanded (.mention name :: places) expanded'
  | body {room path name names expanded inside between places expanded'}
      (hshown : g.IsShown name) (hpath : name ∉ path) (hnew : name ∉ expanded)
      (inner : Walk g room (name :: path) (g.children name) (name :: expanded) inside between)
      (rest : Walk g (room + 1) path names between places expanded') :
      Walk g (room + 1) path (name :: names) expanded (.body name inside :: places) expanded'

variable {g : Graph} {limit room : Nat} {path names expanded expanded' : List String}
  {name : String} {places : List Place} {before after : Progress}

theorem Walk.append {names₁ names₂ before between after : List String}
    {places₁ places₂ : List Place} (w₁ : Walk g room path names₁ before places₁ between)
    (w₂ : Walk g room path names₂ between places₂ after) :
    Walk g room path (names₁ ++ names₂) before (places₁ ++ places₂) after := by
  induction w₁ with
  | nil => exact w₂
  | node hnode _ ih => exact .node hnode (ih w₂)
  | skip hlive _ ih => exact .skip hlive (ih w₂)
  | mention hshown hpath hold _ ih => exact .mention hshown hpath hold (ih w₂)
  | body hshown hpath hnew inner _ _ ih => exact .body hshown hpath hnew inner (ih w₂)

/-! ## Walks and writing -/

/-- A walk is carried out by the writing. -/
theorem Walk.memberStmts_eq (w : Walk g room path names expanded places expanded') (limit : Nat)
    (written : List String) :
    memberStmts g (block g limit room path) names ⟨expanded, written⟩ =
      .ok (Place.toStmts g places, ⟨expanded', Place.writtenAll g places ++ written⟩) := by
  induction w generalizing written with
  | nil => rfl
  | node hnode _ ih =>
      obtain ⟨m, hm⟩ := exists_node?_of_isNode hnode
      rw [memberStmts_node hm, Progress.write, ih, ok_bind, Place.toStmts_cons, Place.toStmt,
        Place.writtenAll_cons, Place.written, hm, List.append_assoc]
      rfl
  | skip hlive _ ih => rw [memberStmts_skip hlive, ih]
  | mention hshown hpath hold _ ih =>
      rw [memberStmts_shown hshown, block_of_mem_expanded hpath hold, ok_bind, ih, ok_bind,
        Place.writtenAll_cons, List.append_assoc]
      rfl
  | body hshown hpath hnew _ _ ihinner ihrest =>
      rw [memberStmts_shown hshown, block_succ hpath hnew, Progress.expand, ihinner, ok_bind,
        ok_bind, ihrest, ok_bind, Place.writtenAll_cons, List.append_assoc]
      rfl

theorem exists_walk_of_memberStmts_of_block
    (hblock : ∀ {name before stmt after}, g.IsShown name →
      block g limit room path name before = .ok (stmt, after) →
      ∃ place, Walk g room path [name] before.expanded [place] after.expanded ∧
        stmt = place.toStmt g ∧ after.written = place.written g ++ before.written)
    {stmts : List Stmt}
    (h : memberStmts g (block g limit room path) names before = .ok (stmts, after)) :
    ∃ places, Walk g room path names before.expanded places after.expanded ∧
      stmts = Place.toStmts g places ∧
      after.written = Place.writtenAll g places ++ before.written := by
  induction names generalizing before stmts with
  | nil =>
      cases h
      exact ⟨[], .nil, rfl, rfl⟩
  | cons name names ih =>
      rcases g.node?_or_isShown_or_not_isLive name with ⟨m, hm⟩ | hshown | hlive
      · rw [memberStmts_node hm, bind_eq_ok_iff] at h
        obtain ⟨⟨rest, last⟩, hr, h⟩ := h
        cases h
        obtain ⟨places, w, hrest, hwritten⟩ := ih hr
        refine ⟨.node name :: places, .node (isNode_of_node? hm) w, ?_, ?_⟩
        · rw [Place.toStmts_cons, Place.toStmt, hm, ← hrest]
          rfl
        · rw [hwritten, Place.writtenAll_cons, Place.written, hm, List.append_assoc]
          rfl
      · rw [memberStmts_shown hshown, bind_eq_ok_iff] at h
        obtain ⟨⟨stmt, between⟩, hb, h⟩ := h
        rw [bind_eq_ok_iff] at h
        obtain ⟨⟨rest, last⟩, hr, h⟩ := h
        cases h
        obtain ⟨place, w₁, hstmt, hwritten₁⟩ := hblock hshown hb
        obtain ⟨places, w₂, hrest, hwritten₂⟩ := ih hr
        refine ⟨place :: places, w₁.append w₂, ?_, ?_⟩
        · rw [Place.toStmts_cons, ← hstmt, ← hrest]
        · rw [hwritten₂, hwritten₁, Place.writtenAll_cons, List.append_assoc]
      · rw [memberStmts_skip hlive] at h
        obtain ⟨places, w, hstmts⟩ := ih h
        exact ⟨places, .skip hlive w, hstmts⟩

/-- The block of a subgraph comes from a walk along it alone. -/
theorem exists_walk_of_block {stmt : Stmt} (hshown : g.IsShown name)
    (h : block g limit room path name before = .ok (stmt, after)) :
    ∃ place, Walk g room path [name] before.expanded [place] after.expanded ∧
      stmt = place.toStmt g ∧ after.written = place.written g ++ before.written := by
  induction room generalizing path name before stmt after with
  | zero =>
      obtain ⟨hpath, ⟨hold, rfl, rfl⟩ | ⟨_, lower, body, hzero, _⟩⟩ := block_ok_cases h
      · exact ⟨.mention name, .mention hshown hpath hold .nil, rfl, rfl⟩
      · cases hzero
  | succ room ih =>
      obtain ⟨hpath, ⟨hold, rfl, rfl⟩ | ⟨hnew, lower, body, hlower, hbody, rfl⟩⟩ :=
        block_ok_cases h
      · exact ⟨.mention name, .mention hshown hpath hold .nil, rfl, rfl⟩
      · cases hlower
        obtain ⟨inside, w, hinside, hwritten⟩ := exists_walk_of_memberStmts_of_block ih hbody
        refine ⟨.body name inside, .body hshown hpath hnew w .nil, ?_, hwritten⟩
        rw [Place.toStmt, ← hinside]

/-- Writing a list of members succeeds exactly by a walk along it. -/
theorem memberStmts_eq_ok_iff {stmts : List Stmt} :
    memberStmts g (block g limit room path) names before = .ok (stmts, after) ↔
      ∃ places, Walk g room path names before.expanded places after.expanded ∧
        stmts = Place.toStmts g places ∧
        after.written = Place.writtenAll g places ++ before.written := by
  constructor
  · exact exists_walk_of_memberStmts_of_block exists_walk_of_block
  · rintro ⟨places, w, rfl, hwritten⟩
    rw [w.memberStmts_eq limit before.written, ← hwritten]

end DotModel.Graph
