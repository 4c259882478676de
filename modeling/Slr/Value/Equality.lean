import Slr.Number.Rounding
import Slr.Value.Basic

/-!
When two values count as the same. Truth values are the integers 0 and 1, and an integer is the same as
a float that stands for it; a NaN differs from itself. Lists and tuples are compared item by item and
never with each other.
-/

namespace Slr.Value

def asInt? : Value → Option Int
  | bool b => some (if b then 1 else 0)
  | int n => some n
  | _ => Option.none

mutual

def same : Value → Value → Bool
  | none, none => true
  | float x, float y => x == y
  | float x, v => match v.asInt? with
    | some n => Number.equalsInt x n
    | Option.none => false
  | v, float y => match v.asInt? with
    | some n => Number.equalsInt y n
    | Option.none => false
  | str s, str t => s == t
  | list xs, list ys => sames xs ys
  | tuple xs, tuple ys => sames xs ys
  | tree n xs, tree m ys => n == m && sames xs ys
  | number x, number y => same x y
  | array x, array y => same x y
  | v, w => match v.asInt?, w.asInt? with
    | some m, some n => m == n
    | _, _ => false

def sames : List Value → List Value → Bool
  | [], [] => true
  | x :: xs, y :: ys => same x y && sames xs ys
  | _, _ => false

end

end Slr.Value
