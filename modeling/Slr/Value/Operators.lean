import Slr.Fault
import Slr.Number.Rounding
import Slr.Value.Equality

/-!
The operators of expressions. Integers are unbounded and stay integers, except that division always
gives a float, rounded once; an integer beside a float is rounded to a float first. Texts, lists and
tuples are joined by `add` and repeated by `mul`.
-/

namespace Slr.Value

def typeError (message : String) : Except Fault Value := .error (.ordinary "TypeError" message)

def unsupported (sign : String) (a b : Value) : Except Fault Value :=
  typeError ("unsupported operand type(s) for " ++ sign ++ ": '" ++ a.kindName ++ "' and '" ++
    b.kindName ++ "'")

def intTooLarge : Fault := .ordinary "OverflowError" "int too large to convert to float"

/-- A number, an integer kept apart from a float. -/
inductive Numeric where
  | int (n : Int)
  | float (x : Float)

def numeric? : Value → Option Numeric
  | float x => some (.float x)
  | v => v.asInt?.map .int

def Numeric.toFloat : Numeric → Except Fault Float
  | .float x => .ok x
  | .int n => match Number.ofInt? n with
    | some x => .ok x
    | Option.none => .error intTooLarge

/-- One operation on integers and one on floats make one on numbers. -/
def Numeric.combine (ints : Int → Int → Except Fault Value) (floats : Float → Float → Except Fault Value) :
    Numeric → Numeric → Except Fault Value
  | .int m, .int n => ints m n
  | a, b => do floats (← a.toFloat) (← b.toFloat)

def cannotJoin (kind : String) (b : Value) : Except Fault Value :=
  typeError ("can only concatenate " ++ kind ++ " (not \"" ++ b.kindName ++ "\") to " ++ kind)

def add (a b : Value) : Except Fault Value :=
  match a, b with
  | str s, str t => .ok (str (s ++ t))
  | list xs, list ys => .ok (list (xs ++ ys))
  | tuple xs, tuple ys => .ok (tuple (xs ++ ys))
  | str _, _ => cannotJoin "str" b
  | list _, _ => cannotJoin "list" b
  | tuple _, _ => cannotJoin "tuple" b
  | _, _ => match a.numeric?, b.numeric? with
    | some m, some n => m.combine (fun m n => .ok (int (m + n))) (fun x y => .ok (float (x + y))) n
    | _, _ => unsupported "+" a b

def sub (a b : Value) : Except Fault Value :=
  match a.numeric?, b.numeric? with
  | some m, some n => m.combine (fun m n => .ok (int (m - n))) (fun x y => .ok (float (x - y))) n
  | _, _ => unsupported "-" a b

/-- Many copies of a list, one behind the other; copies of nothing are nothing, however many. -/
def copies {α : Type} (n : Nat) : List α → List α
  | [] => []
  | x :: xs => (List.replicate n (x :: xs)).flatten

/-- Repeats a text, a list or a tuple; `none` for anything else. -/
def repeatTimes? (n : Nat) : Value → Option Value
  | str s => some (str (String.ofList (copies n s.toList)))
  | list xs => some (list (copies n xs))
  | tuple xs => some (tuple (copies n xs))
  | _ => Option.none

def isSequence : Value → Bool
  | str _ | list _ | tuple _ => true
  | _ => false

/-- The number of repetitions has to fit into 64 bits with a sign. -/
def repeated (sequence times : Value) : Except Fault Value :=
  match times.asInt? with
  | Option.none =>
    typeError ("can't multiply sequence by non-int of type '" ++ times.kindName ++ "'")
  | some n =>
    let limit : Int := Number.twoTo 63
    if n < -limit ∨ limit ≤ n then
      .error (.ordinary "OverflowError" "cannot fit 'int' into an index-sized integer")
    else match sequence.repeatTimes? n.toNat with
      | some v => .ok v
      | Option.none => unsupported "*" sequence times

def mul (a b : Value) : Except Fault Value :=
  match a.numeric?, b.numeric? with
  | some m, some n => m.combine (fun m n => .ok (int (m * n))) (fun x y => .ok (float (x * y))) n
  | _, _ =>
    if a.isSequence then repeated a b
    else if b.isSequence then repeated b a
    else unsupported "*" a b

def divideInts (m n : Int) : Except Fault Value :=
  if n = 0 then .error (.ordinary "ZeroDivisionError" "division by zero")
  else match Number.ofQuotient? m n with
    | some x => .ok (float x)
    | Option.none =>
      .error (.ordinary "OverflowError" "integer division result too large for a float")

def divideFloats (x y : Float) : Except Fault Value :=
  if y == 0 then .error (.ordinary "ZeroDivisionError" "float division by zero")
  else .ok (float (x / y))

def div (a b : Value) : Except Fault Value :=
  match a.numeric?, b.numeric? with
  | some m, some n => m.combine divideInts divideFloats n
  | _, _ => unsupported "/" a b

def neg (a : Value) : Except Fault Value :=
  match a.numeric? with
  | some (.int n) => .ok (int (-n))
  | some (.float x) => .ok (float (-x))
  | Option.none => typeError ("bad operand type for unary -: '" ++ a.kindName ++ "'")

end Slr.Value
