namespace Reckoner

/-!
# Named constants and functions

The names that an expression may use. Case matters, and a name is a constant or a function,
never both.
-/

namespace Builtin

/-- The named constants. -/
def constants : List (String × Float) :=
  [("pi", 3.141592653589793), ("e", 2.718281828459045)]

/-- The named functions of one argument. -/
def functions : List (String × (Float → Float)) :=
  [("sqrt", Float.sqrt), ("sin", Float.sin), ("cos", Float.cos), ("tan", Float.tan),
   ("asin", Float.asin), ("acos", Float.acos), ("atan", Float.atan)]

/-- The constant of a name. -/
def constant? (name : String) : Option Float := constants.lookup name

/-- The function of a name. -/
def function? (name : String) : Option (Float → Float) := functions.lookup name

end Builtin

end Reckoner
