import DotModel.Graph.History
import DotModel.Proofs.Graph.Scope

/-!
# Adding a subgraph

A subgraph that is added stands in its scope and has the attributes in addition to those that it
had, and nothing else has changed.  This is so for every subgraph that is not named as the graph is.

Attributes are set by name, and the name of the graph is that of the graph first.  So a subgraph of
this name is registered without its attributes, and the graph has them instead.
-/

namespace DotModel

/-- A member that is declared is the last one, unless it was there before. -/
theorem Members.keys_declare (ms : Members) (name : String) (attrs : Attributes) :
    (ms.declare name attrs).keys = if name ∈ ms then ms.keys else ms.keys ++ [name] :=
  OrdMap.keys_upsert ms name _ _

namespace Relations

theorem children_add_self (r : Relations) (p c : String) :
    (r.add p c).children p = if c ∈ r.children p then r.children p else r.children p ++ [c] := by
  rw [children_add]
  simp

theorem parents_add_self (r : Relations) (p c : String) :
    (r.add p c).parents c = if p ∈ r.parents c then r.parents c else r.parents c ++ [p] := by
  rw [parents_add]
  simp

end Relations

namespace Graph

variable {g g' : Graph} {parent name : String} {attrs : Attributes}

/-- The attributes of the subgraph of this name; none if there is no such subgraph. -/
def subgraphAttrs (g : Graph) (name : String) : Attributes :=
  ((g.subgraph? name).map Member.attrs).getD ∅

/-- A subgraph has been added with its attributes, and nothing else has changed. -/
structure AddsSubgraph (g g' : Graph) (parent name : String) (attrs : Attributes) : Prop where
  /-- The subgraph is registered, -/
  isSubgraph : g'.isSubgraph name = true
  /-- it is a member of the scope, -/
  isMember : name ∈ g'.children parent
  /-- and it has the attributes in addition to those that it had. -/
  described : (g'.subgraph? name).map Member.attrs = some ((g.subgraphAttrs name).merge attrs)
  /-- It is the last one, unless it was there before. -/
  keys : g'.subgraphs.keys =
    if name ∈ g.subgraphs then g.subgraphs.keys else g.subgraphs.keys ++ [name]
  /-- The others are as they were. -/
  others : ∀ other, other ≠ name → g'.subgraph? other = g.subgraph? other
  /-- Its scope has it as the last member, unless it had it before. -/
  children : g'.children parent =
    if name ∈ g.children parent then g.children parent else g.children parent ++ [name]
  /-- Among its scopes this one is the last, unless it was there before. -/
  parents : g'.relations.parents name =
    if parent ∈ g.relations.parents name then g.relations.parents name
    else g.relations.parents name ++ [parent]
  /-- All other scopes have the members that they had. -/
  childrenOthers : ∀ scope, scope ≠ parent → g'.children scope = g.children scope
  /-- All other members have the scopes that they had. -/
  parentsOthers : ∀ other, other ≠ name → g'.relations.parents other = g.relations.parents other
  /-- The graph itself has the attributes that it had. -/
  ownAttrs : g'.attrs = g.attrs
  nodes : g'.nodes = g.nodes
  edges : g'.edges = g.edges
  name : g'.name = g.name
  directed : g'.directed = g.directed
  strict : g'.strict = g.strict

/-- The subgraph is added if it is declared in its scope. -/
theorem addsSubgraph_declare (g : Graph) (parent name : String) (attrs : Attributes) :
    g.AddsSubgraph
      { g with
        subgraphs := g.subgraphs.declare name attrs
        relations := g.relations.add parent name }
      parent name attrs where
  isSubgraph := isSubgraph_eq_true_iff.mpr (Members.mem_declare.mpr (Or.inl rfl))
  isMember := Relations.mem_children_add.mpr (Or.inl ⟨rfl, rfl⟩)
  described := by
    rw [subgraph?, Members.find?_declare, if_pos rfl, subgraphAttrs, subgraph?]
    cases g.subgraphs.find? name with
    | none => simp
    | some old => rfl
  keys := Members.keys_declare g.subgraphs name attrs
  others other hne := (Members.find?_declare g.subgraphs name attrs other).trans (if_neg hne)
  children := Relations.children_add_self g.relations parent name
  parents := Relations.parents_add_self g.relations parent name
  childrenOthers scope hne :=
    (Relations.children_add g.relations parent name scope).trans (if_neg fun h => hne h.1)
  parentsOthers other hne :=
    (Relations.parents_add g.relations parent name other).trans (if_neg fun h => hne h.1)
  ownAttrs := rfl
  nodes := rfl
  edges := rfl
  name := rfl
  directed := rfl
  strict := rfl

/-- If a subgraph has the name of the graph, what it should get goes to the graph.  This only does
what it should if both have these attributes already. -/
theorem addsSubgraph_register_iff :
    g.AddsSubgraph
        { g with
          attrs := g.attrs.merge attrs
          subgraphs := g.subgraphs.register name
          relations := g.relations.add parent name }
        parent name attrs ↔
      g.attrs.merge attrs = g.attrs ∧
        (g.subgraphAttrs name).merge attrs = g.subgraphAttrs name := by
  have hregistered : ((g.subgraphs.register name).find? name).map Member.attrs =
      some (g.subgraphAttrs name) := by
    rw [Members.register, OrdMap.find?_upsert, if_pos rfl, subgraphAttrs, subgraph?]
    cases g.subgraphs.find? name with
    | none => rfl
    | some old => rfl
  constructor
  · intro h
    exact ⟨h.ownAttrs, (Option.some.inj (hregistered.symm.trans h.described)).symm⟩
  · rintro ⟨hown, hsubgraph⟩
    have hdeclared : g.subgraphs.declare name attrs = g.subgraphs.register name := by
      rw [← Members.modify_register]
      apply OrdMap.modify_eq_self
      intro m hm
      have hm' : m.attrs = g.subgraphAttrs name :=
        Option.some.inj (by rw [← hregistered, hm]; rfl)
      rw [hm', hsubgraph, ← hm']
    rw [hown, ← hdeclared]
    exact addsSubgraph_declare g parent name attrs

/-- In a scope that exists a subgraph is always added, and it is added as it should be unless it has
the name of the graph.  Then the graph gets the attributes, and the subgraph gets none. -/
theorem addSubgraph_addsSubgraph_iff (hparent : g.isScope parent = true) (name : String)
    (attrs : Attributes) :
    ∃ g', g.addSubgraph parent name attrs = .ok g' ∧
      (g.AddsSubgraph g' parent name attrs ↔
        g.name ≠ name ∨
          (g.attrs.merge attrs = g.attrs ∧
            (g.subgraphAttrs name).merge attrs = g.subgraphAttrs name)) ∧
      (g.name = name →
        g' = { g with
          attrs := g.attrs.merge attrs
          subgraphs := g.subgraphs.register name
          relations := g.relations.add parent name }) := by
  by_cases hname : g.name = name
  · refine ⟨_, addSubgraph_of_name hparent hname attrs, ?_, fun _ => rfl⟩
    rw [addsSubgraph_register_iff]
    exact (or_iff_right (not_not.mpr hname)).symm
  · refine ⟨_, addSubgraph_of_ne_name hparent hname attrs, ?_, fun h => absurd h hname⟩
    exact iff_of_true (addsSubgraph_declare g parent name attrs) (Or.inl hname)

/-- A graph with a red subgraph. -/
def redInside : Graph :=
  empty.undergoAll ([.setName "G", .addSubgraph "G" "s" (.ofList [("color", "red")])].map .command)

/-- Added once more, as a member of itself, the subgraph has one more attribute and a new color, and
the graph has nothing of this. -/
theorem redInside_addsSubgraph :
    redInside.isScope "s" = true ∧ redInside.name ≠ "s" ∧
      ∃ g', redInside.addSubgraph "s" "s" (.ofList [("shape", "box"), ("color", "blue")]) = .ok g' ∧
        redInside.AddsSubgraph g' "s" "s" (.ofList [("shape", "box"), ("color", "blue")]) ∧
        g'.subgraphAttrs "s" = .ofList [("color", "blue"), ("shape", "box")] := by
  have hparent : redInside.isScope "s" = true := by decide +kernel
  have hname : redInside.name ≠ "s" := by decide +kernel
  obtain ⟨g', hg', hiff, -⟩ := addSubgraph_addsSubgraph_iff hparent "s"
    (.ofList [("shape", "box"), ("color", "blue")])
  have hadds := hiff.mpr (Or.inl hname)
  refine ⟨hparent, hname, g', hg', hadds, ?_⟩
  rw [subgraphAttrs, hadds.described]
  decide +kernel

/-- A red subgraph with the name of the graph makes the graph red, and stays without attributes. -/
theorem sameName_not_addsSubgraph :
    (empty.setName "G").isScope "G" = true ∧
      ∃ g', (empty.setName "G").addSubgraph "G" "G" (.ofList [("color", "red")]) = .ok g' ∧
        g'.attrs = .ofList [("color", "red")] ∧ g'.subgraphAttrs "G" = ∅ ∧
        ¬(empty.setName "G").AddsSubgraph g' "G" "G" (.ofList [("color", "red")]) := by
  refine ⟨by decide, _, rfl, by decide, by decide, ?_⟩
  intro h
  exact absurd h.ownAttrs (by decide)

end Graph

end DotModel
