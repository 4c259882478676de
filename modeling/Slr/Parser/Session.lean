import Slr.Grammar.Draft
import Slr.Log
import Slr.Parser.Error
import Slr.Table.Basic
import Slr.Text.Column

/-!
What the two parsers share: a session holds the stream and what a parse leaves behind, the steps it took,
what an onlooker saw and the notes. Consulting the table looks at the next token; a move that is found is a
step. Calling for the value of a production runs its action, or makes a node if it has none.
-/

namespace Slr

/-- In a state, seeing a terminal, a parser made a move. -/
structure Step where
  state : Nat
  terminal : String
  move : Move

def Step.text (s : Step) : String :=
  toString s.state ++ ": " ++ s.terminal ++ " -> " ++ s.move.text

/-- The semantic actions of productions; without one a reduction makes a node. -/
abbrev Semantics := Production → Option Action

def AttributedGrammar.semantics (g : AttributedGrammar) : Semantics :=
  fun p => (g.actions[p.index]?).join

structure Session where
  stream : TokenStream
  steps : Array Step
  events : Array Event
  notes : Array Note

/-- The result of a part of a parse, and the session after it. -/
abbrev Outcome (α : Type) := Except ParseError α × Session

namespace Session

def ofStream (stream : TokenStream) : Session := ⟨stream, #[], #[], #[]⟩

def moveText : Option Move → String
  | some move => move.text
  | none => "None"

def record (s : Session) (state : Nat) (terminal : String) (move : Option Move) (note : String) :
    Session :=
  { s with
    steps := match move with
      | some m => s.steps.push ⟨state, terminal, m⟩
      | none => s.steps
    notes := s.notes.push ⟨.info, .action, note⟩ }

/-- The next token and the move for it. `note` writes the note from the token's kind and the move. -/
def consult (s : Session) (table : Table) (state : Nat) (note : String → String → String) :
    Outcome (Token × Option Move) :=
  let look := s.stream.peek
  let seen := { s with stream := look.stream, events := s.events.appendList look.events }
  match look.result with
  | .error f => (.error (.fault f), seen)
  | .ok token =>
    let move := table.move? state token.kind
    (.ok (token, move), seen.record state token.kind move (note token.kind (moveText move)))

/-- Past the token that was just looked at. -/
def pass (s : Session) (token : Token) : Session := { s with stream := s.stream.pass token }

/-- The value of a production over the values of its right hand side. -/
def reduce (s : Session) (semantics : Semantics) (p : Production) (values : List Value) :
    Outcome Value :=
  let called := { s with events := s.events.push (.called p values) }
  match semantics p with
  | none => (.ok (Action.node p.lhs values), called)
  | some action =>
    match action.apply values with
    | .ok v => (.ok v, called)
    | .error (.ordinary kind message) => (.error (.actionFailed p (.ordinary kind message)), called)
    | .error f => (.error (.fault f), called)

def unexpected (table : Table) (state : Nat) (token : Token) : ParseError :=
  .unexpectedToken token state (table.expected state)

/-- The number of tokens consumed. -/
def position (s : Session) : Nat := s.stream.position

end Session

/-- How many moves a parse may make before it is given up. -/
def moveLimit : Nat := Nat.pow 10 18

end Slr
