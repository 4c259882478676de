import Slr.Fault
import Slr.Number.Rounding

/-! How many digits an integer may have as a text, read or written. -/

namespace Slr

def digitLimit : Nat := 4300

def Fault.tooManyDigits (detail : String) : Fault :=
  ordinary "ValueError" ("Exceeds the limit (" ++ toString digitLimit ++
    " digits) for integer string conversion" ++ detail ++
    "; use sys.set_int_max_str_digits() to increase the limit")

namespace Value

mutual

/-- Whether every integer in a value may be written. -/
def isWritable : Value → Bool
  | int n => decide (n.natAbs < Number.tenTo digitLimit)
  | list items | tuple items | tree _ items => areWritable items
  | number v | array v => isWritable v
  | none | bool _ | float _ | str _ => true

def areWritable : List Value → Bool
  | [] => true
  | v :: vs => isWritable v && areWritable vs

end

end Value

end Slr
