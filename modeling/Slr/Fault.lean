import Slr.Value.Basic

/-!
What can go wrong inside a semantic action or a token source. An ordinary fault in an action is wrapped
by the parser and names the production; the other two pass through: a parse error is the action's own
verdict on the input, and exhaustion means that calls nest too deeply.
-/

namespace Slr

inductive Fault where
  | ordinary (kind message : String)
  | parse (message : String)
  | exhausted (message : String)
  deriving DecidableEq, Inhabited

namespace Fault

def kind : Fault → String
  | ordinary kind _ => kind
  | parse _ => "ParseError"
  | exhausted _ => "RecursionError"

def message : Fault → String
  | ordinary _ message => message
  | parse message => message
  | exhausted message => message

def noSuchValue : Fault := ordinary "IndexError" "tuple index out of range"

def notCallable (v : Value) : Fault :=
  ordinary "TypeError" ("'" ++ v.kindName ++ "' object is not callable")

def cannotAppend (v : Value) : Fault :=
  ordinary "AttributeError" ("'" ++ v.kindName ++ "' object has no attribute 'append'")

/-- Texts in a row, with `and` before the last. -/
def enumerate : List String → String
  | [] => ""
  | [a] => a
  | [a, b] => a ++ " and " ++ b
  | texts => ", ".intercalate texts.dropLast ++ ", and " ++ texts.getLastD ""

/-- A call that has no values for some of its parameters. -/
def missing (callee : String) (parameters : List String) : Fault :=
  ordinary "TypeError" (callee ++ "() missing " ++ toString parameters.length ++
    " required positional argument" ++ (if parameters.length == 1 then "" else "s") ++ ": " ++
    enumerate (parameters.map fun name => "'" ++ name ++ "'"))

end Fault

end Slr
