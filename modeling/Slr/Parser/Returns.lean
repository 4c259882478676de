import Slr.Table.Basic

/-!
What the procedure of each state can return: a nonterminal with the procedures that then still have to
return. A state returns its own reductions and, one level less, what comes back to it from the states it
calls. The sets grow in rounds until a round adds nothing. A state that calls itself may not be given a
new pair by its own set: the sets are then not defined.
-/

namespace Slr.Returns

abbrev Pair := String × Nat

/-- The states that a state calls: those of its shifts, then those of its gotos. -/
def callees (table : Table) (state : Nat) : List Nat :=
  ((table.row state).filterMap fun e => match e.2 with
    | .shift target => some target
    | _ => none) ++ (table.gotoRow state).map Prod.snd

/-- The reductions of a state; one of no symbols stays within the state. -/
def own (table : Table) (state : Nat) : List Pair :=
  ((table.row state).filterMap fun e => match e.2 with
    | .reduce p => if 0 < p.size then some (p.lhs, p.size - 1) else none
    | _ => none).eraseDups

/-- What is left of the pairs of a called state. -/
def passedOn (pairs : List Pair) : List Pair :=
  pairs.filterMap fun r => if 0 < r.2 then some (r.1, r.2 - 1) else none

abbrev Sets := List (List Pair)

def setOf (sets : Sets) (state : Nat) : List Pair := (sets[state]?).getD []

/-- Adds to the set of a state what one callee passes on; `none` if a state would add to its own. -/
def absorb (sets : Sets) (state callee : Nat) : Option Sets :=
  let new := ((passedOn (setOf sets callee)).filter (· ∉ setOf sets state)).eraseDups
  if state = callee ∧ new ≠ [] then none else some (sets.set state (setOf sets state ++ new))

def calls (table : Table) : List (Nat × Nat) :=
  (List.range table.size).flatMap fun state => (callees table state).map (state, ·)

def round (table : Table) (sets : Sets) : Option Sets :=
  (calls table).foldlM (fun sets call => absorb sets call.1 call.2) sets

def total (sets : Sets) : Nat := (sets.map List.length).foldl (· + ·) 0

def grow (table : Table) : Nat → Sets → Option Sets
  | 0, sets => some sets
  | rounds + 1, sets =>
    match round table sets with
    | none => none
    | some larger => if total larger = total sets then some larger else grow table rounds larger

/-- A bound on the pairs in all sets: each comes from a reduction, with fewer levels than it has symbols. -/
def pairBound (table : Table) : Nat :=
  table.size * (table.productions.map fun p => p.size).foldl (· + ·) 0

/-- The set of every state; `none` if they are not defined. -/
def sets? (table : Table) : Option Sets :=
  grow table (pairBound table + 1) ((List.range table.size).map (own table))

end Slr.Returns
