import DotModel.Settings.Value

/-!
# Wrapped values

A table in a settings text may wrap a value: it then stands for the value under `contentKey`, and
what else it holds does not matter.  A wrapped value can also be marked with the place that it is
from, under `placeKey`; a text has no marks to give, so with this key it is refused.  The top-level
table, whose keys are the settings, is no wrapping, and both keys mean nothing there.
-/

namespace DotModel.Settings.Toml

/-- The key of the value that a table stands for. -/
def contentKey : String := "___figment_value_value"

/-- The key of the mark that says where a value is from. -/
def placeKey : String := "___figment_value_id"

mutual

/-- The value with all that is wrapped in it taken out, from the inside to the outside. -/
def unwrap? : Value → Option Value
  | .list items => Value.list <$> unwrapItems? items
  | .table entries => do
    let entries ← unwrapEntries? entries
    match entries.lookup placeKey with
    | some _ => none
    | none => some ((entries.lookup contentKey).getD (.table entries))
  | value => some value

/-- The items of a list without their wrappings. -/
def unwrapItems? : List Value → Option (List Value)
  | [] => some []
  | item :: rest => do some ((← unwrap? item) :: (← unwrapItems? rest))

/-- The entries of a table with their values taken out of their wrappings. -/
def unwrapEntries? : List (String × Value) → Option (List (String × Value))
  | [] => some []
  | (key, value) :: rest => do some ((key, ← unwrap? value) :: (← unwrapEntries? rest))

end

end DotModel.Settings.Toml
