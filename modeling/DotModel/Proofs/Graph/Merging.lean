import DotModel.Graph.Command
import DotModel.Proofs.Graph.Scope

/-!
# Declaring a member again

Attributes merge as words are put together: the order of the merging does not matter, only that of
the sets.  A member that is declared once more in the same scope has its attributes merged, and all
else, every order in it, is as after the first declaration.  So a sequence of declarations of one
member in one scope comes to a single one with all its attributes, or to any batches in between.

The first declaration adds a record and the later ones change it, and the attributes of a subgraph
with the name of the graph are not in its record at all.  In each case the later declaration finds
what the first has left, in the place where the first has put it.
-/

namespace DotModel

/-! ## One member -/

theorem OrdSet.insert_of_mem {α : Type} [DecidableEq α] {s : OrdSet α} {a : α} (h : a ∈ s) :
    s.insert a = s :=
  dif_pos h

/-- What is filed already is not filed again. -/
theorem Buckets.link_link {κ ν : Type} [DecidableEq κ] [DecidableEq ν] (b : Buckets κ ν) (k : κ)
    (v : ν) : (b.link k v).link k v = b.link k v := by
  have hfresh : OrdSet.insert {v} v = ({v} : OrdSet ν) :=
    OrdSet.insert_of_mem (OrdSet.mem_singleton.mpr rfl)
  have hagain : (fun s : OrdSet ν => s.insert v) ∘ (fun s : OrdSet ν => s.insert v) =
      fun s : OrdSet ν => s.insert v := by
    funext s
    exact OrdSet.insert_of_mem (OrdSet.mem_insert.mpr (Or.inl rfl))
  rw [link, link, OrdMap.upsert_upsert, hfresh, hagain]

theorem Relations.add_add (r : Relations) (p c : String) : (r.add p c).add p c = r.add p c := by
  rw [add, add, Buckets.link_link, Buckets.link_link]

namespace Members

theorem register_register (ms : Members) (name : String) :
    (ms.register name).register name = ms.register name :=
  OrdMap.upsert_upsert ms name _ _ id id

theorem declare_declare (ms : Members) (name : String) (a b : Attributes) :
    (ms.declare name a).declare name b = ms.declare name (a.merge b) := by
  have hboth : ((fun old : Member => { old with attrs := old.attrs.merge b }) ∘
      fun old : Member => { old with attrs := old.attrs.merge a }) =
        fun old : Member => { old with attrs := old.attrs.merge (a.merge b) } := by
    funext old
    exact congrArg (Member.mk old.name) (Attributes.merge_assoc old.attrs a b)
  rw [declare, declare, OrdMap.upsert_upsert, hboth]
  rfl

end Members

namespace Graph

variable {g : Graph} {parent name : String}

theorem addNode_addNode (g : Graph) (parent name : String) (a b : Attributes) :
    (g.addNode parent name a).addNode parent name b = g.addNode parent name (a.merge b) := by
  simp only [addNode, Members.declare_declare, Relations.add_add]

/-- A scope stays one if the graph keeps its name and its subgraphs. -/
theorem isScope_of_subset {g' : Graph} {scope : String} (hname : g'.name = g.name)
    (hsub : ∀ n, n ∈ g.subgraphs → n ∈ g'.subgraphs) (h : g.isScope scope = true) :
    g'.isScope scope = true := by
  rw [isScope_eq_true_iff] at h ⊢
  exact h.imp hname.trans (hsub scope)

theorem addSubgraph_addSubgraph (g : Graph) (parent name : String) (a b : Attributes) :
    (g.addSubgraph parent name a >>= fun g' => g'.addSubgraph parent name b) =
      g.addSubgraph parent name (a.merge b) := by
  cases hparent : g.isScope parent with
  | false =>
      rw [addSubgraph_of_not_isScope hparent, addSubgraph_of_not_isScope hparent, error_bind]
  | true =>
      by_cases hname : g.name = name
      · have hnext : isScope { g with
            attrs := g.attrs.merge a
            subgraphs := g.subgraphs.register name
            relations := g.relations.add parent name } parent = true :=
          isScope_of_subset (g := g) rfl (fun n hn => OrdMap.mem_upsert.mpr (Or.inr hn)) hparent
        rw [addSubgraph_of_name hparent hname, ok_bind, addSubgraph_of_name hnext hname,
          addSubgraph_of_name hparent hname]
        simp only [Attributes.merge_assoc, Members.register_register, Relations.add_add]
      · have hnext : isScope { g with
            subgraphs := g.subgraphs.declare name a
            relations := g.relations.add parent name } parent = true :=
          isScope_of_subset (g := g) rfl (fun n hn => Members.mem_declare.mpr (Or.inr hn)) hparent
        rw [addSubgraph_of_ne_name hparent hname, ok_bind, addSubgraph_of_ne_name hnext hname,
          addSubgraph_of_ne_name hparent hname]
        simp only [Members.declare_declare, Relations.add_add]

theorem exists_addSubgraph (hparent : g.isScope parent = true) (name : String)
    (attrs : Attributes) : ∃ g', g.addSubgraph parent name attrs = .ok g' := by
  obtain ⟨g', hg', -⟩ := exists_addAttrs (isScope_registered g parent name) attrs.toList
  exact ⟨g', (addSubgraph_of_isScope hparent name attrs).trans hg'⟩

end Graph

/-! ## Sequences of declarations -/

namespace Attributes

/-- All attributes of the sets, merged one after the other. -/
def mergeAll (updates : List Attributes) : Attributes := updates.foldl merge ∅

theorem foldl_merge (a : Attributes) (updates : List Attributes) :
    updates.foldl merge a = a.merge (mergeAll updates) := by
  induction updates generalizing a with
  | nil => exact (merge_empty a).symm
  | cons b rest ih => rw [mergeAll, List.foldl_cons, List.foldl_cons, empty_merge, ih, ih b,
      merge_assoc]

theorem mergeAll_cons (a : Attributes) (rest : List Attributes) :
    mergeAll (a :: rest) = a.merge (mergeAll rest) := by
  rw [mergeAll, List.foldl_cons, empty_merge, foldl_merge]

theorem mergeAll_flatten (batches : List (List Attributes)) :
    mergeAll batches.flatten = mergeAll (batches.map mergeAll) := by
  induction batches with
  | nil => rfl
  | cons batch rest ih =>
      rw [List.flatten_cons, List.map_cons, mergeAll_cons, ← ih, mergeAll, List.foldl_append,
        foldl_merge]
      rfl

end Attributes

namespace Graph

/-- The graph after declarations with these attributes, up to the first that fails. -/
def declareEach (declare : Attributes → Command) (g : Graph) (updates : List Attributes) :
    Except Error Graph :=
  updates.foldlM (fun g a => g.apply (declare a)) g

variable {declare : Attributes → Command} {g : Graph} {parent name : String}

/-- Declarations of one member come to fewer of them with merged attributes. -/
structure Accumulates (declare : Attributes → Command) (g : Graph) : Prop where
  /-- None is refused, -/
  succeeds : ∀ updates, ∃ g', g.declareEach declare updates = .ok g'
  /-- two of them come to one with the merged attributes, -/
  twice : ∀ a b, g.declareEach declare [a, b] = g.apply (declare (a.merge b))
  /-- the same one twice comes to itself, -/
  again : ∀ a, g.declareEach declare [a, a] = g.apply (declare a)
  /-- and a sequence comes to its batches, however it is divided. -/
  batches : ∀ batches : List (List Attributes), batches.flatten ≠ [] →
    g.declareEach declare (batches.map Attributes.mergeAll) =
      g.declareEach declare batches.flatten

/-- Two declarations of this kind are one with the merged attributes, in every graph. -/
def MergesTwo (declare : Attributes → Command) : Prop :=
  ∀ (g : Graph) (a b : Attributes),
    (g.apply (declare a) >>= fun g' => g'.apply (declare b)) = g.apply (declare (a.merge b))

theorem declareEach_cons (a : Attributes) (rest : List Attributes) :
    g.declareEach declare (a :: rest) =
      g.apply (declare a) >>= fun g' => g'.declareEach declare rest :=
  List.foldlM_cons

theorem declareEach_singleton (a : Attributes) :
    g.declareEach declare [a] = g.apply (declare a) := by
  rw [declareEach_cons]
  exact bind_pure _

namespace MergesTwo

theorem declareEach_eq (h : MergesTwo declare) {updates : List Attributes} (hne : updates ≠ []) :
    g.declareEach declare updates = g.apply (declare (.mergeAll updates)) := by
  cases updates with
  | nil => exact absurd rfl hne
  | cons a rest =>
      induction rest generalizing a with
      | nil => rw [declareEach_singleton, Attributes.mergeAll_cons, Attributes.mergeAll,
          List.foldl_nil, Attributes.merge_empty]
      | cons b rest ih =>
          -- The first two are taken together.
          have hsum : Attributes.mergeAll (a :: b :: rest) = .mergeAll (a.merge b :: rest) := by
            simp only [Attributes.mergeAll_cons, Attributes.merge_assoc]
          rw [hsum, ← ih (a.merge b) (List.cons_ne_nil _ _), declareEach_cons, declareEach_cons,
            ← h, bind_assoc]
          simp only [declareEach_cons]

theorem declareEach_batches (h : MergesTwo declare) {batches : List (List Attributes)}
    (hne : batches.flatten ≠ []) :
    g.declareEach declare (batches.map .mergeAll) = g.declareEach declare batches.flatten := by
  have hmap : batches.map Attributes.mergeAll ≠ [] := by
    intro hnil
    rw [List.map_eq_nil_iff.mp hnil] at hne
    exact hne rfl
  rw [h.declareEach_eq hmap, h.declareEach_eq hne, Attributes.mergeAll_flatten]

theorem accumulates (h : MergesTwo declare)
    (hsucceeds : ∀ a, ∃ g', g.apply (declare a) = .ok g') : g.Accumulates declare where
  succeeds := by
    intro updates
    by_cases hne : updates = []
    · exact ⟨g, by rw [hne]; rfl⟩
    · rw [h.declareEach_eq hne]
      exact hsucceeds _
  twice := by
    intro a b
    rw [declareEach_cons]
    simp only [declareEach_singleton]
    exact h g a b
  again := by
    intro a
    rw [declareEach_cons]
    simp only [declareEach_singleton]
    rw [h g a a, Attributes.merge_self]
  batches _ hne := h.declareEach_batches hne

end MergesTwo

theorem mergesTwo_addNode (parent name : String) : MergesTwo (.addNode parent name) := by
  intro g a b
  exact congrArg Except.ok (addNode_addNode g parent name a b)

theorem mergesTwo_addSubgraph (parent name : String) : MergesTwo (.addSubgraph parent name) := by
  intro g a b
  exact addSubgraph_addSubgraph g parent name a b

/-- Merging is associative, with no attributes as the neutral set, and merging a set with itself
changes nothing.  Declarations of a node in any scope, and of a subgraph in a scope that exists,
merge their attributes and do nothing else. -/
theorem declarations_accumulate (g : Graph) (parent name : String) :
    (∀ a b c : Attributes, (a.merge b).merge c = a.merge (b.merge c)) ∧
      (∀ a : Attributes, Attributes.merge ∅ a = a ∧ a.merge ∅ = a ∧ a.merge a = a) ∧
      g.Accumulates (.addNode parent name) ∧
      (g.isScope parent = true → g.Accumulates (.addSubgraph parent name)) := by
  refine ⟨Attributes.merge_assoc, ?_, ?_, ?_⟩
  · intro a
    exact ⟨Attributes.empty_merge a, Attributes.merge_empty a, Attributes.merge_self a⟩
  · exact (mergesTwo_addNode parent name).accumulates fun a => ⟨_, rfl⟩
  · intro hparent
    exact (mergesTwo_addSubgraph parent name).accumulates (exists_addSubgraph hparent name)

/-- A graph that is declared as a subgraph of itself gets the attributes of two batches as those of
the whole sequence. -/
theorem itself_accumulates :
    (empty.setName "G").isScope "G" = true ∧
      ∃ g', (empty.setName "G").declareEach (.addSubgraph "G" "G")
          [.ofList [("shape", "box"), ("color", "red")], .ofList [("size", "2"), ("color", "blue")],
            .ofList [("shape", "circle")]] = .ok g' ∧
        (empty.setName "G").declareEach (.addSubgraph "G" "G")
          [.ofList [("shape", "box"), ("color", "blue"), ("size", "2")],
            .ofList [("shape", "circle")]] = .ok g' ∧
        g'.attrs.toList = [("shape", "circle"), ("color", "blue"), ("size", "2")] := by
  have hparent : (empty.setName "G").isScope "G" = true := by decide
  have h := (declarations_accumulate (empty.setName "G") "G" "G").2.2.2 hparent
  have hbatches := h.batches
    [[.ofList [("shape", "box"), ("color", "red")], .ofList [("size", "2"), ("color", "blue")]],
      [.ofList [("shape", "circle")]]] (by simp)
  refine ⟨hparent, _, rfl, ?_, by decide +kernel⟩
  exact hbatches

end Graph

end DotModel
