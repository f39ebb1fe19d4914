import DotModel.Json.GraphForm
import DotModel.Proofs.Json.Lexing
import DotModel.Proofs.Json.Parts
import DotModel.Proofs.Ordered.Entries

/-!
# Stored graphs are read back

Each part of a graph is read from its stored form as it was, with all orders, whatever its strings
contain and whether or not its indexes agree.  A map comes back with its keys in order since no key
occurs twice, and a port that is missing is told from an empty one by being left out.
-/

namespace DotModel

open Json (fields?_obj list?_map members?_map text?_str ofText?_compact)

/-! ## Maps and sets -/

theorem OrdMap.ofJson?_toJson {ν : Type} {read : Json → Option ν} {write : ν → Json}
    (h : ∀ v, read (write v) = some v) (m : OrdMap String ν) :
    ofJson? read (m.toJson write) = some m := by
  rw [ofJson?, toJson, members?_map fun e _ => h e.2]
  exact congrArg some (ofList_toList m)

theorem OrdSet.ofJson?_toJson (s : OrdSet String) : ofJson? s.toJson = some s := by
  rw [ofJson?, toJson, list?_map fun text _ => text?_str text]
  exact congrArg some (ofList_toList s)

@[simp] theorem Attributes.ofJson?_toJson (attrs : Attributes) :
    ofJson? attrs.toJson = some attrs :=
  OrdMap.ofJson?_toJson text?_str attrs

@[simp] theorem Buckets.ofJson?_toJson (b : Buckets String String) :
    ofJson? b.toJson = some b :=
  OrdMap.ofJson?_toJson OrdSet.ofJson?_toJson b

/-! ## Members, edges and relations -/

theorem Member.ofJson?_toJson (m : Member) : ofJson? m.toJson = some m := by
  rw [ofJson?, toJson, fields?_obj _ _ (by simp)]
  simp [List.lookup_cons]

@[simp] theorem Members.ofWrapped?_toJson (key : String) (ms : Members) :
    ofWrapped? key (.obj [(key, ms.toJson)]) = some ms := by
  have hmembers : ofJson? ms.toJson = some ms := OrdMap.ofJson?_toJson Member.ofJson?_toJson ms
  rw [ofWrapped?, fields?_obj _ _ (by simp)]
  simp [List.lookup_cons, hmembers]

theorem Edge.ofJson?_toJson (e : Edge) : ofJson? e.toJson = some e := by
  obtain ⟨src, srcPort, dst, dstPort, directed, attrs⟩ := e
  cases srcPort <;> cases dstPort <;>
  · rw [ofJson?, toJson, fields?_obj _ _ (by simp [portMember])]
    simp [portMember, List.lookup_cons]

@[simp] theorem Edges.ofJson?_toJson (es : Edges) : ofJson? es.toJson = some es := by
  have hedges : Json.list? Edge.ofJson? (.arr (es.toList.map Edge.toJson)) = some es.toList :=
    list?_map fun e _ => e.ofJson?_toJson
  rw [ofJson?, toJson, fields?_obj _ _ (by simp)]
  simp [List.lookup_cons, hedges]

@[simp] theorem Relations.ofJson?_toJson (r : Relations) : ofJson? r.toJson = some r := by
  rw [ofJson?, toJson, fields?_obj _ _ (by simp)]
  simp [List.lookup_cons]

/-! ## Graphs -/

namespace Graph

theorem ofJson?_toJson (g : Graph) : ofJson? g.toJson = some g := by
  rw [ofJson?, toJson, fields?_obj _ _ (by simp)]
  simp [List.lookup_cons]

/-- The stored text of a graph stands for its stored form, and it is read as the very graph: with
all members, attributes, edges and index entries in their order, those of the indexes also where
they disagree, and with empty ports as such.  Different graphs have different texts. -/
theorem load_save (g : Graph) :
    Json.ofText? g.save = some g.toJson ∧ load g.save = .ok g ∧
      ∀ other : Graph, other.save = g.save ↔ other = g := by
  have hload : ∀ g : Graph, load g.save = .ok g := by
    intro g
    rw [load, save, ofText?_compact, Option.bind_eq_bind, Option.bind_some, ofJson?_toJson]
  refine ⟨ofText?_compact g.toJson, hload g, ?_⟩
  intro other
  constructor
  · intro h
    have hread : load other.save = .ok g := h ▸ hload g
    exact Except.ok.inj ((hload other).symm.trans hread)
  · rintro rfl
    rfl

end Graph

end DotModel
