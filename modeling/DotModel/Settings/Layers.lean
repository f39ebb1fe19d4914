import DotModel.Settings.Basic
import DotModel.Settings.Environment
import DotModel.Settings.Toml.Reader
import DotModel.Settings.Toml.Wrapped

/-!
# Loading settings

The defaults, a settings text and the environment are merged in this order, and only what comes out
is looked at: each setting has to have a value of its type.  Keys that name no setting do not
matter.
-/

namespace DotModel.Settings

/-- The settings as a layer. -/
def toLayer (s : Settings) : Layer :=
  OrdMap.ofList
    [("max_depth", .int s.maxDepth), ("indent", .text s.indent),
      ("emit_orphans", .bool s.emitOrphans)]

/-- The layer that lies below all others. -/
def defaults : Layer := toLayer {}

/-- The value under a key, which `read` takes if it has the right type; without a value the
default. -/
def setting {α : Type} (read : Value → Option α) (key : String) (default : α)
    (values : String → Option Value) : Except Error α :=
  match (values key).map read with
  | none => .ok default
  | some none => .error (.settings (.mistyped key))
  | some (some a) => .ok a

/-- The settings that the values under their keys stand for. -/
def ofValues (values : String → Option Value) : Except Error Settings := do
  let default : Settings := {}
  let maxDepth ← setting Value.count? "max_depth" default.maxDepth values
  let indent ← setting Value.text? "indent" default.indent values
  let emitOrphans ← setting Value.bool? "emit_orphans" default.emitOrphans values
  return { maxDepth, indent, emitOrphans }

/-- How the layers are read from their texts. -/
structure Readers where
  /-- What a settings text holds; none if the text is malformed. -/
  layer? : String → Option Layer
  /-- What the text of a variable stands for. -/
  value : String → Value

namespace Readers

/-- The layer of a settings text. -/
def textLayer (r : Readers) (text : String) : Except Error Layer :=
  match r.layer? text with
  | some layer => .ok layer
  | none => .error (.settings .malformed)

/-- The settings of a text, where there is one, and of environment variables. -/
def load (r : Readers) (text : Option String) (assigned : List (String × String)) :
    Except Error Settings := do
  let layer ← text.elim (.ok ∅) r.textLayer
  let merged := defaults.merge layer.toList
  let merged := merged.merge (Environment.layer r.value assigned).toList
  let settings ← ofValues merged.find?
  settings.validate

/-- The settings of a text alone. -/
def ofText (r : Readers) (text : String) : Except Error Settings := do
  let layer ← r.textLayer text
  let settings ← ofValues (defaults.merge layer.toList).find?
  settings.validate

/-- Texts are TOML whose wrapped values are taken out, and variables have the values of their
notation. -/
def standard : Readers where
  layer? text := OrdMap.ofList <$> (Toml.read? text).bind Toml.unwrapEntries?
  value := Environment.read

end Readers

/-- The settings of a TOML text, where there is one, and of environment variables. -/
def load (text : Option String) (assigned : List (String × String)) : Except Error Settings :=
  Readers.standard.load text assigned

/-- The settings of a TOML text alone. -/
def ofToml (text : String) : Except Error Settings := Readers.standard.ofText text

end DotModel.Settings
