import DotModel.Proofs.Ordered.Entries
import DotModel.Settings.Environment

/-!
# Merged layers

What stands under a key after layers were merged.  A value that is no table takes the place of what
was there before, so that whoever does not accept tables sees the later value and nothing of the
earlier one.
-/

namespace DotModel

namespace OrdMap

variable {κ ν : Type} [DecidableEq κ]

/-- Of several values for a key the last one counts. -/
theorem find?_insertMany_eq (m : OrdMap κ ν) (pairs : List (κ × ν)) (j : κ) :
    (m.insertMany pairs).find? j = (pairs.reverse.lookup j).or (m.find? j) := by
  induction pairs generalizing m with
  | nil => rfl
  | cons e rest ih =>
      have hone : [e].lookup j = if j = e.1 then some e.2 else none := lookup_cons e [] j
      change ((m.insert e.1 e.2).insertMany rest).find? j = _
      rw [ih, find?_insert, List.reverse_cons, List.lookup_append, Option.or_assoc, hone]
      by_cases hj : j = e.1 <;> simp [hj]

theorem find?_ofList (pairs : List (κ × ν)) (j : κ) :
    (ofList pairs).find? j = pairs.reverse.lookup j := by
  rw [ofList, find?_insertMany_eq, find?_empty, Option.or_none]

theorem mem_of_lookup_eq_some {entries : List (κ × ν)} {k : κ} {v : ν}
    (h : entries.lookup k = some v) : (k, v) ∈ entries := by
  induction entries with
  | nil => cases h
  | cons e rest ih =>
      rw [lookup_cons] at h
      split at h
      · rename_i hk
        cases h
        exact hk ▸ List.mem_cons_self
      · exact List.mem_cons_of_mem e (ih h)

theorem mem_of_mem_toList_ofList {pairs : List (κ × ν)} {e : κ × ν}
    (h : e ∈ (ofList pairs).toList) : e ∈ pairs := by
  have hfind : (ofList pairs).find? e.1 = some e.2 := find?_eq_some_iff.mpr h
  rw [find?_ofList] at hfind
  exact List.mem_reverse.mp (mem_of_lookup_eq_some hfind)

end OrdMap

namespace Settings

variable {α : Type} {layer : Layer} {entries : List (String × Value)} {key : String}
  {read : Value → Option α}

theorem Layer.find?_merge (hnodup : (entries.map Prod.fst).Nodup) :
    (layer.merge entries).find? key =
      match entries.lookup key with
      | none => layer.find? key
      | some new => some (((layer.find? key).map fun old => old.merge new).getD new) := by
  induction entries generalizing layer with
  | nil => rfl
  | cons e rest ih =>
      rw [List.map_cons, List.nodup_cons] at hnodup
      change (Layer.merge (layer.upsert e.1 e.2 fun old => old.merge e.2) rest).find? key = _
      rw [ih hnodup.2, OrdMap.find?_upsert, OrdMap.lookup_cons]
      by_cases hkey : key = e.1
      · rw [hkey, OrdMap.lookup_eq_none_of_notMem hnodup.1]
        simp
      · simp [hkey]

/-- A merged value differs from the later one only where both are tables. -/
theorem Value.read_merge (hread : ∀ entries, read (.table entries) = none) (old new : Value) :
    read (old.merge new) = read new := by
  cases new with
  | table new => cases old <;> simp [Value.merge, hread]
  | bool | int | fraction | date | text | list => rfl

theorem Layer.map_find?_merge (hread : ∀ entries, read (.table entries) = none)
    (hnodup : (entries.map Prod.fst).Nodup) :
    ((layer.merge entries).find? key).map read =
      ((entries.lookup key).or (layer.find? key)).map read := by
  rw [Layer.find?_merge hnodup]
  cases entries.lookup key with
  | none => rfl
  | some new =>
      cases layer.find? key with
      | none => rfl
      | some old => exact congrArg some (Value.read_merge hread old new)

end Settings

end DotModel
