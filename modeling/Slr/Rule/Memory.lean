import Slr.Rule.Workshop

/-!
Lists in memory. A list that an action makes is kept in a cell, where it can grow; what is handed on is the
cell, and whoever has it has the list as it is by then. Repetitions make their lists in new cells and
append to them there.
-/

namespace Slr

/-- A value as it is handed on; `plain` is what came from outside, or holds no list that can grow. -/
inductive Thing where
  | plain (v : Value)
  | list (cell : Nat)
  | tuple (things : List Thing)
  | tree (name : String) (children : List Thing)

/-- What is in each cell. -/
abbrev Memory := List (List Thing)

/-- What an action does to memory, and what it gives. -/
abbrev Deed := List Thing → Memory → Except Fault (Thing × Memory)

/-- A value that tells of what kind a thing is. -/
def Thing.sample : Thing → Value
  | plain v => v
  | list _ => .list []
  | tuple _ => .tuple []
  | tree name _ => .tree name []

namespace Deed

def itemOf : List Thing → Thing
  | [t] => t
  | things => .tuple things

/-- What is done where there is no action. -/
def node (name : String) : Deed := fun things m => .ok (.tree name things, m)

def constant (v : Value) : Deed := fun _ m => .ok (.plain v, m)

def item : Deed := fun things m => .ok (itemOf things, m)

/-- A list of these things, in a new cell. -/
def newList (things : List Thing) (m : Memory) : Thing × Memory := (.list m.length, m ++ [things])

def list : Deed := fun things m => .ok (newList things m)

def startList : Deed := fun things m => .ok (newList [itemOf things] m)

/-- Appends to the first thing, a list, and gives it. -/
def extendList : Deed := fun things m =>
  match things with
  | [] => .error (.missing "_append_list" ["accumulator"])
  | t :: rest =>
    match t with
    | .list cell =>
      match m[cell]? with
      | some items => .ok (t, m.set cell (items ++ [itemOf rest]))
      | none => .error (.cannotAppend .none)
    | t => .error (.cannotAppend t.sample)

end Deed

end Slr
