/-!
# Values of settings

What a settings text or an environment variable may hold before it is known which setting it is
for.
-/

namespace DotModel.Settings

/-- A value of some type.  Of a fraction and of a date nothing is kept, since no setting is one. -/
inductive Value where
  | bool (value : Bool)
  | int (value : Int)
  | fraction
  | date
  | text (value : String)
  | list (items : List Value)
  | table (entries : List (String × Value))
  deriving Inhabited

namespace Value

def bool? : Value → Option Bool
  | .bool value => some value
  | _ => none

def text? : Value → Option String
  | .text value => some value
  | _ => none

/-- A whole number from zero on that fits into 64 bits. -/
def count? : Value → Option Nat
  | .int value => if 0 ≤ value ∧ value < Int.pow 2 64 then some value.toNat else none
  | _ => none

end Value

end DotModel.Settings
