import DotModel.Ordered.Map
import DotModel.Settings.Value

/-!
# Merging layers

A layer is the values that one place gives to keys.  Layers are merged one after the other: a later
value takes the place of an earlier one, and only tables are put together, entry by entry.
-/

namespace DotModel.Settings

mutual

/-- The later of two values; if both are tables, with the entries of the earlier one. -/
def Value.merge (old : Value) : Value → Value
  | .table new =>
    match old with
    | .table entries => .table (Value.mergeEntries entries new)
    | _ => .table new
  | new => new

/-- The entries of a table with further ones merged into them. -/
def Value.mergeEntries (entries : List (String × Value)) :
    List (String × Value) → List (String × Value)
  | [] => entries
  | (key, new) :: rest =>
    let merged :=
      if (entries.lookup key).isSome then
        OrdMap.modifyEntries key (fun old => Value.merge old new) entries
      else entries ++ [(key, new)]
    Value.mergeEntries merged rest

end

/-- Values under keys. -/
abbrev Layer := OrdMap String Value

/-- The layer with further entries merged into it, one after the other. -/
def Layer.merge (layer : Layer) (entries : List (String × Value)) : Layer :=
  entries.foldl (fun merged e => merged.upsert e.1 e.2 fun old => old.merge e.2) layer

end DotModel.Settings
