import Slr.Automaton.Basic

/-!
A shortest way to a state. States are searched by distance from state 0: a level holds the states first
met at its distance, each with the symbols that led to it, in the order in which they were met. A level
without new states ends the search, so as many levels as there are states are enough.
-/

namespace Slr.Automaton

abbrev Trail := Nat × List Symbol

/-- Keeps the first trail to each state that has not been visited. -/
def newTrails (visited : List Nat) : List Trail → List Trail
  | [] => []
  | t :: ts =>
    if t.1 ∈ visited then newTrails visited ts else t :: newTrails (t.1 :: visited) ts

def extend (a : Automaton) (t : Trail) : List Trail :=
  (a.successorsOf t.1).map fun e => (e.2, t.2 ++ [e.1])

def searchLevel (a : Automaton) (target : Int) : Nat → List Nat → List Trail → Option (List Symbol)
  | 0, _, _ => none
  | levels + 1, visited, trails =>
    match trails.find? fun t => (t.1 : Int) == target with
    | some t => some t.2
    | none =>
      let found := newTrails visited trails
      searchLevel a target levels (found.map Prod.fst ++ visited) (found.flatMap a.extend)

/-- The symbols on a shortest way from state 0 to a state; `none` if there is no way. -/
def path? (a : Automaton) (target : Int) : Option (List Symbol) :=
  searchLevel a target (a.size + 1) [] [(0, [])]

end Slr.Automaton
