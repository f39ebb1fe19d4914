import DotModel.Json.Value
import DotModel.Proofs.Outcome
import Mathlib.Data.List.Count
import Mathlib.Data.List.Nodup

/-!
# Reading the parts of a value

The fields of an object are found under their names if no key occurs twice.  What was written item
by item or member by member is read back so.
-/

namespace DotModel.Json

variable {α : Type} {read : Json → Option α}

@[simp] theorem text?_str (text : String) : text? (.str text) = some text := rfl

@[simp] theorem bool?_bool (value : Bool) : bool? (.bool value) = some value := rfl

@[simp] theorem variant?_obj (key : String) (value : Json) :
    variant? (.obj [(key, value)]) = some (key, value) := rfl

@[simp] theorem required_some (json : Json) : required read (some json) = read json := rfl

@[simp] theorem optional_none : Json.optional read none = some none := rfl

@[simp] theorem optional_null : Json.optional read (some .null) = some none := rfl

@[simp] theorem optional_str (text : String) :
    Json.optional read (some (.str text)) = (read (.str text)).map some := rfl

/-- An object without repeated keys gives each field as it is found under its name. -/
theorem fields?_obj (names : List String) (members : List (String × Json))
    (h : (members.map Prod.fst).Nodup) :
    fields? names (.obj members) = some (names.map fun name => members.lookup name) := by
  have honce : ∀ name, members.countP (fun m => m.1 == name) ≤ 1 := by
    intro name
    have hcount := List.nodup_iff_count_le_one.mp h name
    rwa [List.count, List.countP_map] at hcount
  simp [fields?, honce]

theorem list?_map {write : α → Json} {xs : List α} (h : ∀ x ∈ xs, read (write x) = some x) :
    list? read (.arr (xs.map write)) = some xs :=
  mapM_map_eq_pure h

theorem members?_map {write : α → Json} {entries : List (String × α)}
    (h : ∀ e ∈ entries, read (write e.2) = some e.2) :
    members? read (.obj (entries.map fun e => (e.1, write e.2))) = some entries := by
  refine mapM_map_eq_pure ?_
  intro e he
  rw [h e he]
  rfl

end DotModel.Json
