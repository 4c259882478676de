import Slr.Table.Construction

/-!
Filling a table by hand, row by row. A row is opened with its number, votes and gotos are put into it, and
the next row or the end closes it. The goto row that was last opened stays the one that gotos go to until
another row is opened, also after it has been closed; votes need an open row. A step that fails in closing
a row leaves the row open.
-/

namespace Slr

structure Builder where
  automaton : Automaton
  actions : List Row
  /-- The goto rows before the one that gotos go to. -/
  earlierGotos : List GotoRow
  gotoRow : GotoRow
  /-- Whether `gotoRow` is the last row of the table already. -/
  gotoRowClosed : Bool
  /-- The open row. -/
  current : Option Nat
  votes : Votes
  conflicts : List Conflict

namespace Builder

inductive Error where
  /-- A row out of turn, a vote outside of a row, or a second goto for a nonterminal. -/
  | misuse
  | unknownTerminal (name : String)
  /-- A conflict in a row beyond the automaton's states. -/
  | noPath (state : Nat)
  | conflicts (found : List Conflict)

def Error.message : Error → String
  | misuse => ""
  | unknownTerminal name => name
  | noPath state => "Unable to find a path to state " ++ toString state ++ "!"
  | conflicts found => Conflict.message found

def ofAutomaton (a : Automaton) : Builder := ⟨a, [], [], [], false, none, [], []⟩

/-- The goto rows that have been closed. -/
def gotos (b : Builder) : List GotoRow :=
  if b.gotoRowClosed then b.earlierGotos ++ [b.gotoRow] else b.earlierGotos

/-- The conflicts of the votes for a row. -/
def rowConflicts (b : Builder) (state : Nat) : Except Error (List Conflict) :=
  match b.votes.contested with
  | [] => .ok []
  | contested =>
    match b.automaton.path? state with
    | none => .error (.noPath state)
    | some path => .ok (contested.map fun t => .ofVotes state path t (b.votes.for t))

def closeRow (b : Builder) : Except Error Builder :=
  match b.current with
  | none => .ok b
  | some state =>
    match b.votes.find? fun v => (b.automaton.grammar.symbolKey? v.1).isNone with
    | some v => .error (.unknownTerminal v.1)
    | none =>
      (b.rowConflicts state).map fun found =>
        { b with
          actions := b.actions ++ [b.votes.settled]
          gotoRowClosed := true
          current := none
          conflicts := b.conflicts ++ found }

/-- The state after a step, and whether the step failed. -/
abbrev Step := Builder × Option Error

/-- The last row is closed even if the number is then refused. -/
def newRow (b : Builder) (state : Int) : Step :=
  match b.closeRow with
  | .error e => (b, some e)
  | .ok c =>
    if state = c.actions.length then
      ({ c with
          earlierGotos := c.gotos
          gotoRow := []
          gotoRowClosed := false
          current := some c.actions.length
          votes := [] }, none)
    else (c, some .misuse)

def vote (b : Builder) (terminal : String) (move : Move) (item : Item) : Step :=
  if b.current.isSome then ({ b with votes := b.votes ++ [(terminal, ⟨move, item⟩)] }, none)
  else (b, some .misuse)

def shift (b : Builder) (terminal : String) (state : Nat) (item : Item) : Step :=
  b.vote terminal (.shift state) item

def reduce (b : Builder) (terminal : String) (item : Item) : Step :=
  b.vote terminal (.reduce item.production) item

def accept (b : Builder) (terminal : String) (item : Item) : Step :=
  b.vote terminal .accept item

def goto (b : Builder) (name : String) (state : Nat) : Step :=
  if (b.gotoRow.lookup name).isSome then (b, some .misuse)
  else ({ b with gotoRow := b.gotoRow ++ [(name, state)] }, none)

/-- Closes the last row and gives the table, unless there are conflicts. -/
def flush (b : Builder) : Builder × Except Error Table :=
  match b.closeRow with
  | .error e => (b, .error e)
  | .ok c =>
    match c.conflicts with
    | [] => (c, .ok (c.automaton.tableOf c.actions c.gotos))
    | found => (c, .error (.conflicts found))

end Builder

end Slr
