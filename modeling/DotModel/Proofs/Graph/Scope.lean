import DotModel.Graph.InPlace
import DotModel.Proofs.Nesting.Basic
import DotModel.Proofs.Ordered.Entries
import DotModel.Proofs.Outcome

/-!
# Scopes

Setting an attribute and adding a subgraph fail if the name that they are given is not that of a
scope, and never otherwise.  They tell this name and leave the graph as it was.

Adding a subgraph changes the graph twice before it sets the first attribute, and each attribute is
set by name.  That none of them fails rests on what the changes before it keep: the name that was
registered is that of a scope from then on, whatever else it is the name of, and setting an
attribute makes no scope and ends none.
-/

namespace DotModel

/-- Registering a member and then setting its attributes declares it. -/
theorem Members.modify_register (ms : Members) (name : String) (attrs : Attributes) :
    (ms.register name).modify name (fun old => { old with attrs := old.attrs.merge attrs }) =
      ms.declare name attrs := by
  rw [register, OrdMap.modify_upsert, Attributes.empty_merge]
  rfl

namespace Graph

variable {g g' : Graph} {parent name scope key value : String} {attrs : Attributes} {e : Error}

theorem isScope_eq_true_iff : g.isScope scope = true ↔ g.name = scope ∨ scope ∈ g.subgraphs := by
  rw [isScope, Bool.or_eq_true, beq_iff_eq, isSubgraph_eq_true_iff]

theorem isScope_eq_false_iff :
    g.isScope scope = false ↔ g.name ≠ scope ∧ g.isSubgraph scope = false := by
  rw [isScope, Bool.or_eq_false_iff, beq_eq_false_iff_ne]

/-! ## One attribute -/

theorem addAttr_of_name (h : g.name = scope) :
    g.addAttr scope key value = .ok { g with attrs := g.attrs.set key value } :=
  if_pos h

theorem addAttr_of_isSubgraph (hname : g.name ≠ scope) (h : g.isSubgraph scope = true) :
    g.addAttr scope key value =
      .ok { g with subgraphs := g.subgraphs.setAttr scope key value } := by
  rw [addAttr, if_neg hname, if_pos h]

theorem addAttr_of_not_isScope (h : g.isScope scope = false) :
    g.addAttr scope key value = .error (.unknownScope scope) := by
  obtain ⟨hname, hsubgraph⟩ := isScope_eq_false_iff.mp h
  rw [addAttr, if_neg hname, if_neg (Bool.eq_false_iff.mp hsubgraph)]

theorem exists_addAttr (h : g.isScope scope = true) (key value : String) :
    ∃ g', g.addAttr scope key value = .ok g' := by
  by_cases hname : g.name = scope
  · exact ⟨_, addAttr_of_name hname⟩
  · have hsubgraph : scope ∈ g.subgraphs := (isScope_eq_true_iff.mp h).resolve_left hname
    exact ⟨_, addAttr_of_isSubgraph hname (isSubgraph_eq_true_iff.mpr hsubgraph)⟩

theorem addAttr_eq_error_iff :
    g.addAttr scope key value = .error e ↔ g.isScope scope = false ∧ e = .unknownScope scope := by
  cases hscope : g.isScope scope with
  | false =>
      rw [addAttr_of_not_isScope hscope]
      simp [eq_comm]
  | true =>
      obtain ⟨g', hg'⟩ := exists_addAttr hscope key value
      simp [hg']

/-- The attribute is the graph's own or that of a subgraph. -/
theorem addAttr_cases (h : g.addAttr scope key value = .ok g') :
    g.name = scope ∧ g' = { g with attrs := g.attrs.set key value } ∨
      g.isSubgraph scope = true ∧
        g' = { g with subgraphs := g.subgraphs.setAttr scope key value } := by
  unfold addAttr at h
  split at h
  · cases h
    exact Or.inl ⟨‹_›, rfl⟩
  · split at h
    · cases h
      exact Or.inr ⟨‹_›, rfl⟩
    · cases h

/-- Setting an attribute makes no scope and ends none. -/
theorem isScope_of_addAttr (h : g.addAttr scope key value = .ok g') (other : String) :
    g'.isScope other = g.isScope other := by
  rw [Bool.eq_iff_iff, isScope_eq_true_iff, isScope_eq_true_iff]
  obtain ⟨-, rfl⟩ | ⟨-, rfl⟩ := addAttr_cases h
  · rfl
  · exact or_congr Iff.rfl OrdMap.mem_modify

/-! ## Attributes one after the other -/

/-- What each attribute keeps, all of them keep. -/
theorem addAttrs_induction {P : Graph → Prop}
    (hstep : ∀ {g g' : Graph} {key value : String}, P g → g.addAttr scope key value = .ok g' → P g')
    {entries : List (String × String)} (hg : P g) (h : g.addAttrs scope entries = .ok g') :
    P g' := by
  induction entries generalizing g with
  | nil =>
      cases h
      exact hg
  | cons e rest ih =>
      rw [addAttrs, bind_eq_ok_iff] at h
      obtain ⟨next, hnext, h⟩ := h
      exact ih (hstep hg hnext) h

/-- No attribute of a scope is refused after others. -/
theorem exists_addAttrs (h : g.isScope scope = true) (entries : List (String × String)) :
    ∃ g', g.addAttrs scope entries = .ok g' ∧ g'.isScope scope = true := by
  induction entries generalizing g with
  | nil => exact ⟨g, rfl, h⟩
  | cons e rest ih =>
      obtain ⟨next, hnext⟩ := exists_addAttr h e.1 e.2
      have hscope : next.isScope scope = true := (isScope_of_addAttr hnext scope).trans h
      obtain ⟨g', hg', hscope'⟩ := ih hscope
      exact ⟨g', by rw [addAttrs, hnext, ok_bind, hg'], hscope'⟩

/-- Under its name the graph gets all attributes itself, even if a subgraph has the same name. -/
theorem addAttrs_of_name (h : g.name = scope) (entries : List (String × String)) :
    g.addAttrs scope entries = .ok { g with attrs := g.attrs.insertMany entries } := by
  induction entries generalizing g with
  | nil => rfl
  | cons e rest ih =>
      rw [addAttrs, addAttr_of_name h, ok_bind]
      exact ih h

theorem addAttrs_of_isSubgraph (hname : g.name ≠ scope) (h : g.isSubgraph scope = true)
    (entries : List (String × String)) :
    g.addAttrs scope entries =
      .ok { g with subgraphs := g.subgraphs.modify scope fun old =>
        { old with attrs := old.attrs.insertMany entries } } := by
  induction entries generalizing g with
  | nil =>
      have hsame : (g.subgraphs.modify scope fun old =>
          { old with attrs := old.attrs.insertMany [] }) = g.subgraphs :=
        OrdMap.modify_id g.subgraphs scope
      rw [addAttrs, hsame]
  | cons e rest ih =>
      let next : Graph := { g with subgraphs := g.subgraphs.setAttr scope e.1 e.2 }
      have hnext : next.isSubgraph scope = true :=
        isSubgraph_eq_true_iff.mpr (OrdMap.mem_modify.mpr (isSubgraph_eq_true_iff.mp h))
      have hjoined : (next.subgraphs.modify scope fun old =>
          { old with attrs := old.attrs.insertMany rest }) =
            g.subgraphs.modify scope fun old =>
              { old with attrs := old.attrs.insertMany (e :: rest) } :=
        OrdMap.modify_modify g.subgraphs scope _ _
      rw [addAttrs, addAttr_of_isSubgraph hname h, ok_bind, ih (g := next) hname hnext, hjoined]

/-! ## A subgraph with its attributes -/

/-- The graph with a subgraph registered in a scope, before any of its attributes is set. -/
def registered (g : Graph) (parent name : String) : Graph :=
  { g with
    subgraphs := g.subgraphs.register name
    relations := g.relations.add parent name }

theorem isSubgraph_registered (g : Graph) (parent name : String) :
    (g.registered parent name).isSubgraph name = true :=
  isSubgraph_eq_true_iff.mpr (OrdMap.mem_upsert.mpr (Or.inl rfl))

theorem isScope_registered (g : Graph) (parent name : String) :
    (g.registered parent name).isScope name = true :=
  isScope_eq_true_iff.mpr (Or.inr (isSubgraph_eq_true_iff.mp (isSubgraph_registered g parent name)))

theorem addSubgraph_of_isScope (h : g.isScope parent = true) (name : String) (attrs : Attributes) :
    g.addSubgraph parent name attrs = (g.registered parent name).addAttrs name attrs.toList :=
  if_pos h

theorem addSubgraph_of_not_isScope (h : g.isScope parent = false) (name : String)
    (attrs : Attributes) : g.addSubgraph parent name attrs = .error (.unknownScope parent) := by
  rw [addSubgraph, if_neg (Bool.eq_false_iff.mp h)]

/-- A subgraph that is added is registered first, in a scope that exists. -/
theorem addSubgraph_cases (h : g.addSubgraph parent name attrs = .ok g') :
    g.isScope parent = true ∧ (g.registered parent name).addAttrs name attrs.toList = .ok g' := by
  cases hparent : g.isScope parent with
  | false =>
      rw [addSubgraph_of_not_isScope hparent] at h
      cases h
  | true => exact ⟨rfl, (addSubgraph_of_isScope hparent name attrs).symm.trans h⟩

/-- A subgraph with another name than the graph is declared with its attributes. -/
theorem addSubgraph_of_ne_name (hparent : g.isScope parent = true) (hname : g.name ≠ name)
    (attrs : Attributes) :
    g.addSubgraph parent name attrs =
      .ok { g with
        subgraphs := g.subgraphs.declare name attrs
        relations := g.relations.add parent name } := by
  have hother : (g.registered parent name).name ≠ name := hname
  rw [addSubgraph_of_isScope hparent,
    addAttrs_of_isSubgraph hother (isSubgraph_registered g parent name),
    ← Members.modify_register]
  rfl

/-- The attributes of a subgraph with the name of the graph go to the graph. -/
theorem addSubgraph_of_name (hparent : g.isScope parent = true) (hname : g.name = name)
    (attrs : Attributes) :
    g.addSubgraph parent name attrs =
      .ok { g with
        attrs := g.attrs.merge attrs
        subgraphs := g.subgraphs.register name
        relations := g.relations.add parent name } :=
  (addSubgraph_of_isScope hparent name attrs).trans
    (addAttrs_of_name (g := g.registered parent name) hname attrs.toList)

theorem addSubgraph_eq_error_iff :
    g.addSubgraph parent name attrs = .error e ↔
      g.isScope parent = false ∧ e = .unknownScope parent := by
  cases hparent : g.isScope parent with
  | false =>
      rw [addSubgraph_of_not_isScope hparent]
      simp [eq_comm]
  | true =>
      obtain ⟨g', hg', -⟩ := exists_addAttrs (isScope_registered g parent name) attrs.toList
      rw [addSubgraph_of_isScope hparent, hg']
      simp

end Graph

/-! ## In place -/

namespace InPlace

open DotModel.Graph

variable {g g' : Graph} {parent name scope key value : String} {attrs : Attributes} {e : Error}

/-- What a run leaves that is done as a whole or not at all. -/
def whole (g : Graph) : Except Error Graph → EStateM.Result Error Graph Unit
  | .ok g' => .ok () g'
  | .error e => .error e g

theorem whole_eq_error_iff {outcome : Except Error Graph} :
    whole g outcome = .error e g' ↔ outcome = .error e ∧ g' = g := by
  cases outcome with
  | ok g₁ => simp [whole]
  | error e₁ => simp [whole, eq_comm]

theorem run_addAttr (g : Graph) (scope key value : String) :
    (addAttr scope key value).run g = whole g (g.addAttr scope key value) := by
  by_cases hname : g.name = scope
  · rw [addAttr_of_name hname]
    simp [addAttr, whole, hname]
  · cases hsubgraph : g.isSubgraph scope with
    | true =>
        rw [addAttr_of_isSubgraph hname hsubgraph]
        simp [addAttr, whole, hname, hsubgraph]
    | false =>
        rw [addAttr_of_not_isScope (isScope_eq_false_iff.mpr ⟨hname, hsubgraph⟩)]
        simp [addAttr, whole, hname, hsubgraph]

/-- If no attribute fails, the run gives the graph with all of them. -/
theorem run_addAttrs {entries : List (String × String)} (h : g.addAttrs scope entries = .ok g') :
    (addAttrs scope entries).run g = .ok () g' := by
  induction entries generalizing g with
  | nil =>
      cases h
      rfl
  | cons e rest ih =>
      rw [Graph.addAttrs, bind_eq_ok_iff] at h
      obtain ⟨next, hnext, h⟩ := h
      have hrun : (addAttrs scope (e :: rest)).run g =
          (addAttr scope e.1 e.2 >>= fun _ => addAttrs scope rest).run g := rfl
      rw [hrun, EStateM.run_bind, run_addAttr, hnext]
      exact ih h

theorem run_register (g : Graph) (parent name : String) :
    (register parent name).run g = .ok () (g.registered parent name) := rfl

theorem run_addSubgraph (g : Graph) (parent name : String) (attrs : Attributes) :
    (addSubgraph parent name attrs).run g = whole g (g.addSubgraph parent name attrs) := by
  cases hparent : g.isScope parent with
  | false =>
      rw [addSubgraph_of_not_isScope hparent]
      simp [addSubgraph, whole, hparent]
  | true =>
      obtain ⟨g', hg', -⟩ := exists_addAttrs (isScope_registered g parent name) attrs.toList
      rw [addSubgraph_of_isScope hparent, hg']
      simp [addSubgraph, whole, hparent, EStateM.run_bind, run_register, run_addAttrs hg']

/-- Once the subgraph is registered, no attribute of it fails after those before it. -/
theorem exists_run_addAttr (g : Graph) (parent name : String) (before : List (String × String))
    (key value : String) :
    ∃ g₁ g₂, (do register parent name; addAttrs name before).run g = .ok () g₁ ∧
      (addAttr name key value).run g₁ = .ok () g₂ := by
  obtain ⟨g₁, hg₁, hscope⟩ := exists_addAttrs (isScope_registered g parent name) before
  obtain ⟨g₂, hg₂⟩ := exists_addAttr hscope key value
  refine ⟨g₁, g₂, ?_, ?_⟩
  · rw [EStateM.run_bind, run_register]
    exact run_addAttrs hg₁
  · rw [run_addAttr, hg₂]
    rfl

/-- Setting an attribute and adding a subgraph fail if and only if they are given a name that is
neither that of the graph nor that of a subgraph.  They tell this name, and the graph is as it was.
What does not fail is done as a whole: whatever the name of the subgraph, once it is registered no
attribute of it fails after others. -/
theorem run_eq_error_iff_unknown_scope (g : Graph) (parent name key value : String)
    (attrs : Attributes) :
    (∀ e g', (addAttr parent key value).run g = .error e g' ↔
        (g.name ≠ parent ∧ g.isSubgraph parent = false) ∧ e = .unknownScope parent ∧ g' = g) ∧
      (∀ e g', (addSubgraph parent name attrs).run g = .error e g' ↔
        (g.name ≠ parent ∧ g.isSubgraph parent = false) ∧ e = .unknownScope parent ∧ g' = g) ∧
      (addAttr parent key value).run g = whole g (g.addAttr parent key value) ∧
      (addSubgraph parent name attrs).run g = whole g (g.addSubgraph parent name attrs) ∧
      ∀ (before : List (String × String)) (key value : String),
        ∃ g₁ g₂, (do register parent name; addAttrs name before).run g = .ok () g₁ ∧
          (addAttr name key value).run g₁ = .ok () g₂ := by
  refine ⟨?_, ?_, run_addAttr g parent key value, run_addSubgraph g parent name attrs,
    exists_run_addAttr g parent name⟩
  · intro e g'
    rw [run_addAttr, whole_eq_error_iff, addAttr_eq_error_iff, isScope_eq_false_iff, and_assoc]
  · intro e g'
    rw [run_addSubgraph, whole_eq_error_iff, addSubgraph_eq_error_iff, isScope_eq_false_iff,
      and_assoc]

end InPlace

end DotModel
