import Slr.Parser.Session

/-!
Recursive ascent: each state is a procedure, and the calls that are open take the place of the stack. A
procedure holds the values of the last symbols on the way to its state, as many as its items can see. A
shift calls the procedure of the next state; a reduction returns, with the number of procedures that still
have to return before one of them takes the goto. That one calls the procedure of the goto's state and
looks at what comes back in the same way, so a left recursive rule runs in a loop and opens no calls.
Only so many calls may be open: a further one fails, and the parse with it, as too deep.
-/

namespace Slr.Ascent

/-- A nonterminal on its way to the procedure that takes the goto, and the procedures, the one that holds
it included, that have to return before. -/
structure Reduction where
  name : String
  value : Value
  pops : Nat

inductive Return where
  | reduction (r : Reduction)
  | accepted (value : Value)

/-- The last `size` of the values held. -/
def lastValues (size : Nat) (held : List Value) : List Value := held.drop (held.length - size)

/-- The values of a right hand side of so many symbols. If fewer are held, as many as are missing are
taken from the end. -/
def operands (size : Nat) (held : List Value) : List Value :=
  lastValues (if size ≤ held.length then size else size - held.length) held

/-- What the next procedure holds: at most `depth` values, the new one last. -/
def hold (held : List Value) (value : Value) (depth : Nat) : List Value :=
  lastValues depth (held ++ [value])

/-- The same for a depth that may be below 0, which leaves out so many values at the front. -/
def holdSigned (held : List Value) (value : Value) : Int → List Value
  | .ofNat depth => hold held value depth
  | .negSucc below => (held ++ [value]).drop (below + 1)

def note (state : Nat) (kind move : String) : String :=
  Text.padEnd 5 (toString state) ++ " " ++ Text.padEnd 15 kind ++ " " ++ move

/-- What a call meets when no further one may be open. -/
def noRoom : Fault := .exhausted "maximum recursion depth exceeded"

mutual

/-- A call of the procedure of a state when `room` calls may still be opened; `none` if it has not ended
within the fuel. -/
def call (table : Table) (semantics : Semantics) :
    Nat → Nat → Nat → List Value → Session → Option (Outcome Return)
  | 0, _, _, _, _ => none
  | _ + 1, 0, _, _, s => some (.error (.fault noRoom), s)
  | fuel + 1, room + 1, state, held, s =>
    match s.consult table state (note state) with
    | (.error e, s) => some (.error e, s)
    | (.ok (token, none), s) => some (.error (Session.unexpected table state token), s)
    | (.ok (token, some .accept), s) =>
      match held.getLast? with
      | none => some (.error .outOfRange, s.pass token)
      | some v => some (.ok (.accepted v), s.pass token)
    | (.ok (token, some (.shift target)), s) =>
      match call table semantics fuel room target
          (hold held token.value (table.depth target)) (s.pass token) with
      | none => none
      | some (.error e, s) => some (.error e, s)
      | some (.ok r, s) => settle table semantics fuel room state held r s
    | (.ok (_, some (.reduce p)), s) =>
      match s.reduce semantics p (operands p.size held) with
      | (.error e, s) => some (.error e, s)
      | (.ok v, s) => settle table semantics fuel room state held (.reduction ⟨p.lhs, v, p.size⟩) s

/-- What the procedure of a state does with what comes back: it returns one level further, or takes the
goto and starts over. So many calls may still be opened while its own is open. -/
def settle (table : Table) (semantics : Semantics) :
    Nat → Nat → Nat → List Value → Return → Session → Option (Outcome Return)
  | 0, _, _, _, _, _ => none
  | fuel + 1, room, state, held, r, s =>
    match r with
    | .accepted v => some (.ok (.accepted v), s)
    | .reduction ⟨name, value, pops + 1⟩ => some (.ok (.reduction ⟨name, value, pops⟩), s)
    | .reduction ⟨name, value, 0⟩ =>
      match table.goto? state name with
      | none =>
        some (.error (.corrupt ("state " ++ toString state ++ " has no goto on " ++ name)), s)
      | some target =>
        match call table semantics fuel room target
            (hold held value (table.depth target)) s with
        | none => none
        | some (.error e, s) => some (.error e, s)
        | some (.ok r, s) => settle table semantics fuel room state held r s

end

/-- How many calls may be open if no other limit is set. -/
def callLimit : Nat := Nat.pow 10 18

def procedure (table : Table) (semantics : Semantics) (fuel state : Nat) (held : List Value)
    (s : Session) : Option (Outcome Return) :=
  call table semantics fuel callLimit state held s

def escaped (r : Reduction) : ParseError :=
  .corrupt ("reduction escaped the start state: Reduction(symbol=" ++
    (Symbol.nonterminal r.name).describe ++ ", value=" ++ r.value.text ++ ", pops=" ++
    toString r.pops ++ ")")

/-- The result of the start state's procedure as the result of a parse. -/
def conclude : Outcome Return → Outcome Value
  | (.ok (.accepted v), s) => (.ok v, s)
  | (.ok (.reduction r), s) => (.error (escaped r), s)
  | (.error (.fault (.exhausted _)), s) => (.error (.tooDeep s.position), s)
  | (.error e, s) => (.error e, s)

/-- A parse with at most `limit` calls open at once. -/
def parse? (table : Table) (semantics : Semantics) (limit fuel : Nat) (s : Session) :
    Option (Outcome Value) :=
  (call table semantics fuel limit 0 [] s).map conclude

def parse (table : Table) (semantics : Semantics) (s : Session) : Option (Outcome Value) :=
  parse? table semantics callLimit moveLimit s

end Slr.Ascent
