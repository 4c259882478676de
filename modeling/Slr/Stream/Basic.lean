import Slr.Grammar.Basic
import Slr.Stream.Token

/-!
Token streams: one token of lookahead over a source that is pulled only when a token is needed. A token of
the kind of the end, nothing, or the end of the source ends the input; from then on the stream gives the
end of the input for ever and the source is not asked again. A pull that meets a fault fails; behind it a
source has nothing more, unless it is one that goes on with the next item.
-/

namespace Slr

/-- What an onlooker sees, in order: pulls of items from a source, the one vain pull at its end, and the
calls for the value of a production. -/
inductive Event where
  | pulled (index : Nat)
  | ended
  | called (production : Production) (values : List Value)

/-- The items still to come, the index of the first, whether pulls are seen by an onlooker, and whether
the source goes on behind a fault. -/
structure Source where
  items : List RawToken
  index : Nat
  watched : Bool
  resumes : Bool

structure TokenStream where
  source : Option Source
  ahead : Option Token
  pulled : Nat
  lastEnd : Int
  position : Nat

namespace TokenStream

def ofSource (src : Source) : TokenStream := ⟨some src, none, 0, 0, 0⟩

/-- Over a source that has nothing more behind a fault. -/
def ofItems (items : List RawToken) (watched : Bool) : TokenStream :=
  ⟨some ⟨items, 0, watched, false⟩, none, 0, 0, 0⟩

/-- What came of looking at the stream: a token or a fault, the stream after it, and what was seen. -/
structure Look where
  result : Except Fault Token
  stream : TokenStream
  events : List Event

def finish (s : TokenStream) (events : List Event) : Look :=
  ⟨.ok (.atEnd s.lastEnd), { s with source := none }, events⟩

def pull (s : TokenStream) : Look :=
  match s.source with
  | none => s.finish []
  | some src =>
    match src.items with
    | [] => s.finish (if src.watched then [.ended] else [])
    | raw :: rest =>
      let events := if src.watched then [.pulled src.index] else []
      let behind : Source := { src with items := rest, index := src.index + 1 }
      match raw with
      | .fault f => ⟨.error f, { s with source := if src.resumes then some behind else none }, events⟩
      | raw =>
        match raw.token? s.pulled with
        | none => s.finish events
        | some t =>
          let next := if t.isEnd then none else some behind
          ⟨.ok t, { s with source := next, pulled := s.pulled + 1, lastEnd := t.stop }, events⟩

/-- The next token, which stays the next. -/
def peek (s : TokenStream) : Look :=
  match s.ahead with
  | some t => ⟨.ok t, s, []⟩
  | none =>
    let look := s.pull
    match look.result with
    | .ok t => { look with stream := { look.stream with ahead := some t } }
    | .error _ => look

/-- Past the token `t`; the end of the input stays ahead. -/
def pass (s : TokenStream) (t : Token) : TokenStream :=
  { s with ahead := if t.isEnd then s.ahead else none, position := s.position + 1 }

/-- The next token, which is consumed. -/
def advance (s : TokenStream) : Look :=
  let look := s.peek
  match look.result with
  | .ok t => { look with stream := look.stream.pass t }
  | .error _ => look

end TokenStream

end Slr
