import Slr.Fault
import Slr.Value.Equality

/-!
Semantic actions. An action takes the values of a right hand side and gives the value of the left hand
side, or fails. Its labels are the names under which an onlooker notes a call, outermost first; they do
not change what it does.
-/

namespace Slr

structure Action where
  labels : List String
  apply : List Value → Except Fault Value

namespace Action

def ofFunction (f : List Value → Except Fault Value) : Action := ⟨[], f⟩

/-- A function with a name and a value for each of its parameters; it is not called with fewer. -/
def withParameters (callee : String) (parameters : List String)
    (f : List Value → Except Fault Value) : Action :=
  ofFunction fun values =>
    if values.length < parameters.length then .error (.missing callee (parameters.drop values.length))
    else f values

/-- The value a reduction has when its production has no action: a node over the values. -/
def node (name : String) (values : List Value) : Value := .tree name values

def value? (values : List Value) (i : Nat) : Except Fault Value :=
  match values[i]? with
  | some v => .ok v
  | none => .error .noSuchValue

def tuple : Action := ofFunction fun values => .ok (.tuple values)

def list : Action := ofFunction fun values => .ok (.list values)

def pick (i : Nat) : Action := ofFunction fun values => value? values i

/-- The first value, a list, with the value at `i` behind its items. -/
def append (i : Nat) : Action := ofFunction fun values => do
  match ← value? values 0 with
  | .list items => return .list (items ++ [← value? values i])
  | v => throw (.cannotAppend v)

def constant (v : Value) : Action := ofFunction fun _ => .ok v

def fail (fault : Fault) : Action := ofFunction fun _ => .error fault

/-- Fails if the first value is the same as `v`, and gives it otherwise. -/
def failOn (v : Value) (fault : Fault) : Action := ofFunction fun values => do
  let first ← value? values 0
  if first.same v then throw fault else return first

def noted (label : String) (a : Action) : Action := ⟨label :: a.labels, a.apply⟩

/-- What stands where an action should, and cannot be called. -/
def notCallable (v : Value) : Action := fail (.notCallable v)

end Action

end Slr
