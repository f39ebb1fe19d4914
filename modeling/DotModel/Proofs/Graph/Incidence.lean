import DotModel.Proofs.Graph.Pairs

/-!
# The index of the edges

The index holds the pairs of names that edges join, each once and in the order of their first edges.
So what it answers about a name is what the list of edges says: whether one of them starts there,
ends there, or either.
-/

namespace DotModel

theorem OrdSet.mem_foldl_insert {α : Type} [DecidableEq α] {s : OrdSet α} {members : List α}
    {a : α} : a ∈ members.foldl insert s ↔ a ∈ s ∨ a ∈ members := by
  induction members generalizing s with
  | nil => simp
  | cons b rest ih => rw [List.foldl_cons, ih, mem_insert, List.mem_cons, or_left_comm, or_assoc]

theorem OrdSet.ofList_append {α : Type} [DecidableEq α] (members : List α) (a : α) :
    ofList (members ++ [a]) = (ofList members).insert a :=
  List.foldl_append

namespace Edges

variable {es : Edges} {name : String}

/-- The pairs of names that the edges join, in the order of the first edge of each. -/
def joined (edges : List Edge) : OrdSet (String × String) :=
  .ofList (edges.map fun e => (e.src, e.dst))

theorem mem_joined_iff {edges : List Edge} {src dst : String} :
    (src, dst) ∈ (joined edges).toList ↔ ∃ e ∈ edges, e.src = src ∧ e.dst = dst := by
  rw [← OrdSet.mem_def, joined, OrdSet.ofList, OrdSet.mem_foldl_insert]
  simp [OrdSet.mem_def]

theorem joined_append (edges : List Edge) (e : Edge) :
    joined (edges ++ [e]) = (joined edges).insert (e.src, e.dst) := by
  rw [joined, List.map_append]
  exact OrdSet.ofList_append _ _

/-- The index is that of the pairs that the edges join. -/
def IsIndexed (es : Edges) : Prop := es.targets.Indexes (joined es.toList).toList

theorem isIndexed_empty : IsIndexed ∅ := Buckets.Indexes.empty

theorem IsIndexed.add (h : es.IsIndexed) (e : Edge) : (es.add e).IsIndexed := by
  have hlink := h.link e.src e.dst
  simp only [← OrdSet.mem_def, ← OrdSet.toList_insert] at hlink
  rw [IsIndexed, Edges.add, joined_append]
  exact hlink

theorem IsIndexed.addMany (h : es.IsIndexed) (added : List Edge) :
    (es.addMany added).IsIndexed := by
  induction added generalizing es with
  | nil => exact h
  | cons e rest ih => exact ih (h.add e)

namespace IsIndexed

theorem mem_bucket_iff (h : es.IsIndexed) {src dst : String} :
    dst ∈ es.targets.bucket src ↔ ∃ e ∈ es.toList, e.src = src ∧ e.dst = dst := by
  rw [h.mem_iff, mem_joined_iff]

/-- There is a bucket for each source and for no other name, since none is empty. -/
theorem hasSource_iff (h : es.IsIndexed) :
    es.hasSource name = true ↔ ∃ e ∈ es.toList, e.src = name := by
  rw [hasSource, OrdMap.contains_eq_true_iff, h.filled.mem_iff]
  constructor
  · intro hne
    obtain ⟨dst, hdst⟩ := List.exists_mem_of_ne_nil _ hne
    obtain ⟨e, he, hsrc, -⟩ := h.mem_bucket_iff.mp hdst
    exact ⟨e, he, hsrc⟩
  · rintro ⟨e, he, hsrc⟩
    exact List.ne_nil_of_mem (h.mem_bucket_iff.mpr ⟨e, he, hsrc, rfl⟩)

theorem hasTarget_iff (h : es.IsIndexed) :
    es.hasTarget name = true ↔ ∃ e ∈ es.toList, e.dst = name := by
  have hvalues : es.hasTarget name = true ↔ ∃ src, name ∈ es.targets.bucket src := by
    simp only [hasTarget, List.any_eq_true, OrdMap.mem_values_iff, Buckets.mem_bucket_iff,
      OrdSet.contains, decide_eq_true_eq, OrdSet.mem_def]
    constructor
    · rintro ⟨values, ⟨src, hsrc⟩, hmem⟩
      exact ⟨src, values, hsrc, hmem⟩
    · rintro ⟨src, values, hsrc, hmem⟩
      exact ⟨values, ⟨src, hsrc⟩, hmem⟩
  rw [hvalues]
  constructor
  · rintro ⟨src, hmem⟩
    obtain ⟨e, he, -, hdst⟩ := h.mem_bucket_iff.mp hmem
    exact ⟨e, he, hdst⟩
  · rintro ⟨e, he, hdst⟩
    exact ⟨e.src, h.mem_bucket_iff.mpr ⟨e, he, rfl, hdst⟩⟩

theorem participates_iff (h : es.IsIndexed) :
    es.participates name = true ↔ ∃ e ∈ es.toList, e.src = name ∨ e.dst = name := by
  rw [participates, Bool.or_eq_true, h.hasSource_iff, h.hasTarget_iff]
  simp only [and_or_left, exists_or]

end IsIndexed

end Edges

theorem Graph.HasBuiltEdges.isIndexed {g : Graph} (h : g.HasBuiltEdges) : g.edges.IsIndexed :=
  h ▸ Edges.isIndexed_empty.addMany g.edges.toList

end DotModel
