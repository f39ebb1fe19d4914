import DotModel.Proofs.Graph.Incidence

/-!
# The index of the edges after any history

Edges come in many ways, one by one, with ports, with an item, from a list or from a graph, which
may be the same one.  Each way ends in adding edges at the end.  So the edges of a graph are those
that its history has added, in their order and with every repetition, and the index answers from
them: the targets of a name are those of the edges that start there, each in the place of its first
edge.
-/

namespace DotModel

/-! ## Targets -/

/-- Among distinct pairs a key has the partners that it has in the list, each once. -/
theorem partners_ofList {κ ν : Type} [DecidableEq κ] [DecidableEq ν] (k : κ)
    (pairs : List (κ × ν)) :
    partners k (OrdSet.ofList pairs).toList = (partners k pairs).eraseDups := by
  induction pairs using List.reverseRecOn with
  | nil => rfl
  | append_singleton pairs e ih =>
      have hmem : e ∈ OrdSet.ofList pairs ↔ e.2 ∈ partners e.1 (OrdSet.ofList pairs).toList :=
        OrdSet.mem_def.trans mem_partners_iff.symm
      rw [OrdSet.ofList_append, OrdSet.toList_insert, partners_append, List.eraseDups_append, ← ih]
      by_cases hk : e.1 = k
      · subst hk
        rw [ih, List.mem_eraseDups] at hmem
        by_cases he : e ∈ OrdSet.ofList pairs
        · simp [he, partners_cons, List.removeAll, hmem.mp he]
        · simp [he, partners_append, partners_cons, List.removeAll, mt hmem.mpr he,
            List.eraseDups_cons]
      · by_cases he : e ∈ OrdSet.ofList pairs <;>
          simp [he, hk, partners_append, partners_cons, List.removeAll]

namespace Edges

variable {es : Edges}

theorem IsIndexed.edgesFrom_eq (h : es.IsIndexed) (name : String) :
    es.edgesFrom name = ((es.toList.filter fun e => e.src = name).map Edge.dst).eraseDups := by
  rw [edgesFrom, h.bucket_eq, joined, partners_ofList, partners, List.filter_map, List.map_map]
  rfl

/-- The edges are the listed ones, and every question about a name is answered from the list. -/
structure Answers (es : Edges) (added : List Edge) : Prop where
  toList_eq : es.toList = added
  edgesFrom_eq : ∀ name,
    es.edgesFrom name = ((added.filter fun e => e.src = name).map Edge.dst).eraseDups
  hasSource_iff : ∀ name, es.hasSource name = true ↔ ∃ e ∈ added, e.src = name
  hasTarget_iff : ∀ name, es.hasTarget name = true ↔ ∃ e ∈ added, e.dst = name
  participates_iff : ∀ name,
    es.participates name = true ↔ ∃ e ∈ added, e.src = name ∨ e.dst = name

theorem IsIndexed.answers (h : es.IsIndexed) : es.Answers es.toList where
  toList_eq := rfl
  edgesFrom_eq := h.edgesFrom_eq
  hasSource_iff _ := h.hasSource_iff
  hasTarget_iff _ := h.hasTarget_iff
  participates_iff _ := h.participates_iff

theorem answers_addMany (added : List Edge) : (addMany ∅ added).Answers added := by
  have hlist : (addMany ∅ added).toList = added := toList_addMany ∅ added
  have h : (addMany ∅ added).Answers (addMany ∅ added).toList :=
    (isIndexed_empty.addMany added).answers
  rwa [hlist] at h

theorem addMany_append (es : Edges) (added more : List Edge) :
    es.addMany (added ++ more) = (es.addMany added).addMany more :=
  List.foldl_append

end Edges

/-! ## Histories -/

namespace Graph

variable {g g' : Graph}

theorem edges_addItems (g : Graph) (parent : String) (items : List Item) :
    (g.addItems parent items).edges = g.edges.addMany (items.flatMap Item.edges) := by
  induction items generalizing g with
  | nil => rfl
  | cons item rest ih =>
      rw [List.flatMap_cons, Edges.addMany_append]
      exact ih (g.addItem parent item)

theorem edges_addAttr {scope key value : String} (h : g.addAttr scope key value = .ok g') :
    g'.edges = g.edges := by
  obtain ⟨-, rfl⟩ | ⟨-, rfl⟩ := addAttr_cases h <;> rfl

theorem edges_addSubgraph {parent name : String} {attrs : Attributes}
    (h : g.addSubgraph parent name attrs = .ok g') : g'.edges = g.edges := by
  obtain ⟨-, hattrs⟩ := addSubgraph_cases h
  have hregistered : (g.registered parent name).edges = g.edges := rfl
  exact addAttrs_induction (fun hnext hstep => (edges_addAttr hstep).trans hnext) hregistered hattrs

theorem edges_removeEdgeless (g : Graph) (parent : String) :
    (g.removeEdgeless parent).edges = g.edges := by
  rw [removeEdgeless, removeEdgelessTo_eq]
  exact List.foldlRecOn (motive := fun next : Graph => next.edges = g.edges) g.edgeless _ rfl
    fun _ hnext _ _ => hnext

/-- What a command does to the edges depends on nothing else in the graph. -/
theorem edges_of_apply {c : Command} (h : g.apply c = .ok g') :
    g'.edges = g.edges.addMany (c.adds g.edges.toList) := by
  cases c with
  | setName name => cases h; rfl
  | setDirected directed => cases h; rfl
  | setStrict strict => cases h; rfl
  | addNode parent name attrs => cases h; rfl
  | removeNode parent name => cases h; rfl
  | addItem parent item => cases h; rfl
  | addItems parent items => cases h; exact edges_addItems g parent items
  | addEdge edge => cases h; rfl
  | addEdges edges => cases h; rfl
  | addPortEdge src srcPort dst dstPort directed attrs => cases h; rfl
  | addEdgesFrom source => cases h; rfl
  | addOwnEdges => cases h; rfl
  | addAttr scope key value => exact edges_addAttr h
  | addSubgraph parent name attrs => exact edges_addSubgraph h
  | removeEdgeless parent => cases h; exact edges_removeEdgeless g parent

/-- Only the attributes of a scope and a subgraph can be refused, and they bring no edges. -/
theorem adds_eq_nil_of_apply_error {c : Command} {e : Error} (own : List Edge)
    (h : g.apply c = .error e) : c.adds own = [] := by
  cases c with
  | addAttr scope key value => rfl
  | addSubgraph parent name attrs => rfl
  | _ => cases h

theorem edges_perform (g : Graph) (c : Command) :
    (g.perform c).edges = g.edges.addMany (c.adds g.edges.toList) := by
  cases h : g.apply c with
  | ok g' =>
      rw [perform, h]
      exact edges_of_apply h
  | error e =>
      rw [perform, h, adds_eq_nil_of_apply_error g.edges.toList h]
      rfl

theorem edges_undergo (g : Graph) (o : Occurrence) :
    (g.undergo o).edges = g.edges.addMany (o.adds g.edges.toList) := by
  cases o with
  | command c => exact edges_perform g c
  | reload =>
      rw [undergo, reload_eq]
      rfl

/-- After any history the edges are as if they had been added to none, one by one. -/
theorem edges_undergoAll (os : List Occurrence) :
    (empty.undergoAll os).edges = .addMany ∅ (Occurrence.addsAll os) := by
  induction os using List.reverseRecOn with
  | nil => rfl
  | append_singleton os o ih =>
      have hown : (empty.undergoAll os).edges.toList = Occurrence.addsAll os := by
        rw [ih]
        exact Edges.toList_addMany ∅ _
      rw [undergoAll, List.foldl_append, Occurrence.addsAll, List.foldl_append]
      change ((empty.undergoAll os).undergo o).edges =
        .addMany ∅ (Occurrence.addsAll os ++ o.adds (Occurrence.addsAll os))
      rw [edges_undergo, hown, ih, Edges.addMany_append]

/-- Edges that have come to a graph by any history, and to a set that is taken from it one by one,
are listed in their order with every repetition, and every question about a name is answered from
the list. -/
theorem edges_answer_from_list (os : List Occurrence) (more : List Edge) :
    ((empty.undergoAll os).edges.addMany more).Answers (Occurrence.addsAll os ++ more) := by
  rw [edges_undergoAll, ← Edges.addMany_append]
  exact Edges.answers_addMany _

example :
    (empty.performAll [.addPortEdge "a" (some "p") "b" none true ∅,
      .addPortEdge "a" none "c" none false ∅, .addOwnEdges]).edges.edgesFrom "a" = ["b", "c"] := by
  decide

end Graph

end DotModel
