import Slr.Automaton.Path

/-!
The table of an SLR(1) parser. Each state has a row of moves, keyed by the terminal ahead, and a row of
gotos, keyed by nonterminals. An item at its end votes for its reduction on every terminal that may follow
its left hand side; an item before a terminal votes for a shift, or for acceptance before the end of the
input. A terminal with one distinct vote gets it as its move; with more it is a conflict, and none of the
votes is preferred. All conflicts are collected.
-/

namespace Slr

inductive Move where
  | shift (state : Nat)
  | reduce (production : Production)
  | accept
  deriving DecidableEq

def Move.text : Move → String
  | shift state => "Shift(" ++ toString state ++ ")"
  | reduce production => "Reduce(" ++ production.text ++ ")"
  | accept => "Accept"

/-- Moves by the name of the terminal ahead, in the order of names. -/
abbrev Row := List (String × Move)

abbrev GotoRow := List (String × Nat)

structure Table where
  actions : List Row
  gotos : List GotoRow
  /-- How many values the procedure of each state holds. -/
  depths : List Nat
  productions : List Production
  /-- The items of each state, written out. -/
  states : List (List String)

namespace Table

def size (t : Table) : Nat := t.actions.length

def row (t : Table) (state : Nat) : Row := (t.actions[state]?).getD []

def gotoRow (t : Table) (state : Nat) : GotoRow := (t.gotos[state]?).getD []

def move? (t : Table) (state : Nat) (terminal : String) : Option Move := (t.row state).lookup terminal

def goto? (t : Table) (state : Nat) (name : String) : Option Nat := (t.gotoRow state).lookup name

def depth (t : Table) (state : Nat) : Nat := (t.depths[state]?).getD 0

/-- The terminals with a move. -/
def expected (t : Table) (state : Nat) : List String := sortNames ((t.row state).map Prod.fst)

/-- Takes single moves and gotos out of a table. -/
def without (t : Table) (moves gotos : List (Nat × String)) : Table :=
  { t with
    actions := t.actions.mapIdx fun i row => row.filter fun e => (i, e.1) ∉ moves
    gotos := t.gotos.mapIdx fun i row => row.filter fun e => (i, e.1) ∉ gotos }

end Table

/-! ## Votes -/

structure Vote where
  move : Move
  item : Item

/-- Votes with the terminals they are for, in the order in which they were cast. -/
abbrev Votes := List (String × Vote)

def Votes.for (votes : Votes) (terminal : String) : List Vote :=
  votes.filterMap fun v => if v.1 = terminal then some v.2 else none

def Votes.terminals (votes : Votes) : List String := sortNames (votes.map Prod.fst)

def Votes.moves (votes : Votes) (terminal : String) : List Move :=
  ((votes.for terminal).map Vote.move).eraseDups

/-- The moves of a row: those of the terminals with one distinct vote. -/
def Votes.settled (votes : Votes) : Row :=
  votes.terminals.filterMap fun t => match votes.moves t with
    | [m] => some (t, m)
    | _ => none

/-- The terminals that are not settled. -/
def Votes.contested (votes : Votes) : List String :=
  votes.terminals.filter fun t => match votes.moves t with
    | [_] => false
    | _ => true

/-! ## Conflicts -/

inductive ConflictKind where
  | shiftReduce
  | reduceReduce
  deriving DecidableEq

def ConflictKind.text : ConflictKind → String
  | shiftReduce => "shift/reduce"
  | reduceReduce => "reduce/reduce"

structure Conflict where
  state : Nat
  terminal : String
  /-- The names of the symbols on a shortest way to the state. -/
  path : List String
  kind : ConflictKind
  /-- Each voting item, and what it votes for. -/
  actions : List (String × String)
  deriving DecidableEq

def Move.isReduce : Move → Bool
  | reduce _ => true
  | _ => false

/-- What a move would do, in a message. -/
def Move.advice : Move → String
  | shift _ => "consume the token and keep going"
  | reduce p => "use the " ++ toString p.rhs.length ++ " values to make a " ++ p.lhs
  | accept => "accept the parse"

namespace Conflict

def ofVotes (state : Nat) (path : List Symbol) (terminal : String) (votes : List Vote) : Conflict where
  state := state
  terminal := terminal
  path := path.map Symbol.name
  kind := if votes.all fun v => v.move.isReduce then .reduceReduce else .shiftReduce
  actions := votes.map fun v => (v.item.text, v.move.advice)

def text (c : Conflict) : String :=
  let title := "State " ++ toString c.state ++ " (" ++ c.kind.text ++ "): when we have parsed '" ++
    " ".intercalate c.path ++ "' and see '" ++ c.terminal ++ "' we don't know whether:"
  let advice := c.actions.map fun a =>
    "- We are in the rule `" ++ a.1 ++ "` and we should " ++ a.2
  "\n".intercalate (title :: advice)

/-- Several conflicts, one paragraph each. -/
def message (conflicts : List Conflict) : String :=
  toString conflicts.length ++ " conflicts:\n\n" ++ "\n\n".intercalate (conflicts.map text)

end Conflict

end Slr
