import Slr.Parser.Session

/-!
The table-driven parser: a stack of states, each but the lowest with the value of the symbol that led to
it, and one move after another. `step` makes one move, `run` makes moves until one ends the parse.
-/

namespace Slr.StackParser

/-- States with values, the top first. -/
abbrev Stack := List (Nat × Value)

def bottom : Stack := [(0, .none)]

inductive Status where
  | running (stack : Stack)
  | accepted (value : Value)
  | failed (error : ParseError)

/-- The states on top of the stack, at most five, the top last. -/
def topStates (stack : Stack) : String :=
  "[" ++ ", ".intercalate ((stack.take 5).reverse.map fun e => toString e.1) ++ "]"

def note (stack : Stack) (kind move : String) : String :=
  Text.padEnd 30 (topStates stack) ++ " " ++ Text.padEnd 15 kind ++ " " ++ Text.padEnd 5 move

/-- Puts the value of a nonterminal on a stack. -/
def push (table : Table) (name : String) (value : Value) : Stack → Status
  | [] => .failed .outOfRange
  | (state, v) :: rest =>
    match table.goto? state name with
    | none => .failed (.corrupt "")
    | some target => .running ((target, value) :: (state, v) :: rest)

def step (table : Table) (semantics : Semantics) (stack : Stack) (s : Session) : Status × Session :=
  match stack with
  | [] => (.failed .outOfRange, s)
  | (state, top) :: below =>
    match s.consult table state (note stack) with
    | (.error e, s) => (.failed e, s)
    | (.ok (token, none), s) => (.failed (Session.unexpected table state token), s)
    | (.ok (token, some .accept), s) => (.accepted top, s.pass token)
    | (.ok (token, some (.shift target)), s) =>
      (.running ((target, token.value) :: (state, top) :: below), s.pass token)
    | (.ok (_, some (.reduce p)), s) =>
      let values := (((state, top) :: below).take p.size).reverse.map Prod.snd
      match s.reduce semantics p values with
      | (.error e, s) => (.failed e, s)
      | (.ok value, s) => (push table p.lhs value (((state, top) :: below).drop p.size), s)

/-- `none` if the parse has not ended after so many moves. -/
def run (table : Table) (semantics : Semantics) : Nat → Stack → Session → Option (Outcome Value)
  | 0, _, _ => none
  | fuel + 1, stack, s =>
    match step table semantics stack s with
    | (.accepted v, s) => some (.ok v, s)
    | (.failed e, s) => some (.error e, s)
    | (.running stack, s) => run table semantics fuel stack s

def parse? (table : Table) (semantics : Semantics) (fuel : Nat) (s : Session) :
    Option (Outcome Value) :=
  run table semantics fuel bottom s

def parse (table : Table) (semantics : Semantics) (s : Session) : Option (Outcome Value) :=
  parse? table semantics moveLimit s

end Slr.StackParser
