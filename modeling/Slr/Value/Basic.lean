/-!
The values that tokens carry and that semantic actions take and give. `tree` is what a reduction
without an action of its own makes; `number` and `array` are the results of the array language.
-/

namespace Slr

inductive Value where
  | none
  | bool (b : Bool)
  | int (n : Int)
  | float (x : Float)
  | str (s : String)
  | list (items : List Value)
  | tuple (items : List Value)
  | tree (name : String) (children : List Value)
  | number (value : Value)
  | array (items : Value)
  deriving Inhabited

namespace Value

/-- The name of a value's kind, as messages give it. -/
def kindName : Value → String
  | none => "NoneType"
  | bool _ => "bool"
  | int _ => "int"
  | float _ => "float"
  | str _ => "str"
  | list _ => "list"
  | tuple _ => "tuple"
  | tree _ _ => "Tree"
  | number _ => "Number"
  | array _ => "Array"

end Value

end Slr
