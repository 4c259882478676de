import Slr.Lookahead.Follow
import Slr.Table.Basic

/-!
From an automaton and lookahead sets to the table. Lookahead sets that the grammar did not give itself may
lack a nonterminal or name a terminal that is not in the grammar.
-/

namespace Slr

inductive TableError where
  | conflicts (found : List Conflict)
  | noLookahead (nonterminal : String)
  | unknownTerminal (name : String)

namespace TableError

def message : TableError → String
  | conflicts found => Conflict.message found
  | noLookahead nonterminal => (Symbol.nonterminal nonterminal).describe
  | unknownTerminal name => name

end TableError

namespace Automaton

def reduceVotes (a : Automaton) (follow : Lookahead) (it : Item) : Except TableError Votes :=
  match follow.lookup it.production.lhs with
  | none => .error (.noLookahead it.production.lhs)
  | some ts =>
    match ts.find? fun t => (a.grammar.symbolKey? t).isNone with
    | some t => .error (.unknownTerminal t)
    | none => .ok ((sortNames ts).map fun t => (t, ⟨.reduce it.production, it⟩))

/-- The votes of one item of a state. -/
def itemVotes (a : Automaton) (follow : Lookahead) (state : Nat) (it : Item) :
    Except TableError Votes :=
  match it.next with
  | none => a.reduceVotes follow it
  | some (.nonterminal _) => .ok []
  | some (.terminal t) =>
    if t = endName then .ok [(t, ⟨.accept, it⟩)]
    else .ok (((a.shifts state).lookup t).toList.map fun j => (t, ⟨.shift j, it⟩))

def stateVotes (a : Automaton) (follow : Lookahead) (state : Nat) : Except TableError Votes :=
  ((a.items state).mapM (a.itemVotes follow state)).map List.flatten

def allVotes (a : Automaton) (follow : Lookahead) : Except TableError (List Votes) :=
  (List.range a.size).mapM (a.stateVotes follow)

/-- The conflicts of a state; a state that cannot be reached has no way to it to report. -/
def conflictsOf (a : Automaton) (state : Nat) (votes : Votes) : List Conflict :=
  let path := (a.path? state).getD []
  votes.contested.map fun t => .ofVotes state path t (votes.for t)

/-- A table over the states of an automaton with the given rows. -/
def tableOf (a : Automaton) (actions : List Row) (gotos : List GotoRow) : Table where
  actions := actions
  gotos := gotos
  depths := a.states.map depthOf
  productions := a.grammar.productions
  states := a.states.map fun items => items.map Item.text

def table (a : Automaton) (follow : Lookahead) : Except TableError Table :=
  match a.allVotes follow with
  | .error e => .error e
  | .ok votes =>
    match (votes.mapIdx a.conflictsOf).flatten with
    | [] => .ok (a.tableOf (votes.map Votes.settled) ((List.range a.size).map a.gotos))
    | found => .error (.conflicts found)

end Automaton

/-- The SLR(1) table of a grammar. -/
def Grammar.table (g : Grammar) : Except TableError Table := (Automaton.build g).table g.follow

/-- What is said about a finished table. -/
def Table.note (t : Table) : Note :=
  ⟨.info, .build, "Built a table with " ++ toString t.size ++ " states"⟩

end Slr
