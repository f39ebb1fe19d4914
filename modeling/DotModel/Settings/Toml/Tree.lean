import DotModel.Settings.Value

/-!
# Tables of TOML

The tables of a text while it is read.  A table can be opened by a header, by a header for a table
inside of it, or by a dotted key, and this decides what may still be added to it.
-/

namespace DotModel.Settings.Toml

/-- How a table came to be. -/
inductive Origin where
  /-- By a header of its own. -/
  | header
  /-- By a header for something inside of it. -/
  | path
  /-- By a dotted key. -/
  | dotted
  deriving DecidableEq

/-- What a key stands for: a value, a table, or the tables of an array of tables. -/
inductive Node where
  | value (value : Value)
  | table (origin : Origin) (entries : List (String × Node))
  | tables (items : List (List (String × Node)))

/-- The entries of a table. -/
abbrev Entries := List (String × Node)

namespace Entries

/-- The entries with `node` under a key that is there. -/
def replace (entries : Entries) (key : String) (node : Node) : Entries :=
  entries.map fun e => if e.1 = key then (key, node) else e

/-- Changes the table at the end of a path, which takes the last table of an array of tables.
`origin` is for the tables that have to be added; dotted keys do not lead into tables with a header
of their own. -/
def within (origin : Origin) (change : Origin → Entries → Option (Origin × Entries)) :
    (path : List String) → Origin → Entries → Option (Origin × Entries)
  | [], own, entries => change own entries
  | key :: path, own, entries =>
    match entries.lookup key with
    | none => do
      let (inner, added) ← within origin change path origin []
      some (own, entries ++ [(key, .table inner added)])
    | some (.value _) => none
    | some (.table inner old) =>
      if origin = .dotted ∧ inner = .header then none
      else do
        let (inner, new) ← within origin change path inner old
        some (own, entries.replace key (.table inner new))
    | some (.tables items) => do
      let last ← items.getLast?
      let (_, new) ← within origin change path .header last
      some (own, entries.replace key (.tables (items.dropLast ++ [new])))

/-- Opens the table of a header.  Only a table that no header and no dotted key has opened may be
there already. -/
def openTable (key : String) (own : Origin) (entries : Entries) : Option (Origin × Entries) :=
  match entries.lookup key with
  | none => some (own, entries ++ [(key, .table .header [])])
  | some (.table .path inner) => some (own, entries.replace key (.table .header inner))
  | some _ => none

/-- Adds a table to the array of tables of a header. -/
def openItem (key : String) (own : Origin) (entries : Entries) : Option (Origin × Entries) :=
  match entries.lookup key with
  | none => some (own, entries ++ [(key, .tables [[]])])
  | some (.tables items) => some (own, entries.replace key (.tables (items ++ [[]])))
  | some _ => none

/-- Adds a value under a key that is not there yet. -/
def add (key : String) (value : Value) (own : Origin) (entries : Entries) :
    Option (Origin × Entries) :=
  match entries.lookup key with
  | none => some (own, entries ++ [(key, .value value)])
  | some _ => none

/-- Adds a value to a table under a dotted key.  All tables on its way but the first are opened by
dotted keys, the last one too. -/
def assign (path : List String) (key : String) (value : Value) (own : Origin)
    (entries : Entries) : Option (Origin × Entries) :=
  if path.isEmpty then add key value own entries
  else
    within .dotted
      (fun inner new => if inner = .dotted then add key value inner new else none) path own entries

end Entries

mutual

/-- The value of a node. -/
def Node.toValue : Node → Value
  | .value value => value
  | .table _ entries => .table (Entries.toValues entries)
  | .tables items => .list (Entries.itemsToValues items)

/-- The values of the entries of a table. -/
def Entries.toValues : List (String × Node) → List (String × Value)
  | [] => []
  | (key, node) :: rest => (key, node.toValue) :: Entries.toValues rest

/-- The values of the tables of an array. -/
def Entries.itemsToValues : List (List (String × Node)) → List Value
  | [] => []
  | entries :: rest => .table (Entries.toValues entries) :: Entries.itemsToValues rest

end

end DotModel.Settings.Toml
