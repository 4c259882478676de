import Slr.Proofs.Parser.Moves
import Slr.Proofs.Stream.Pulls

/-! # What an onlooker has seen of a session

The events of a session are the calls for values and the pulls from the source. A
parse asks for as many items as tokens were consumed, and for the one ahead when it
looks. -/

namespace Slr

def Event.call? : Event → Option (Production × List Value)
  | .called p values => some (p, values)
  | _ => none

namespace Session

/-- The calls for the value of a production, in order. -/
def calls (s : Session) : List (Production × List Value) := s.events.toList.filterMap Event.call?

/-- The pulls from the source, in order. -/
def pulls (s : Session) : List Event := s.events.toList.filter Event.isPull

variable {table : Table} {state : Nat} {note : String → String → String} {s s' : Session}

@[simp] theorem calls_pass (s : Session) (t : Token) : (s.pass t).calls = s.calls := rfl

@[simp] theorem pulls_pass (s : Session) (t : Token) : (s.pass t).pulls = s.pulls := rfl

@[simp] theorem calls_called (s : Session) (p : Production) (values : List Value) :
    (s.called p values).calls = s.calls ++ [(p, values)] := by
  simp [calls, called, Event.call?]

@[simp] theorem pulls_called (s : Session) (p : Production) (values : List Value) :
    (s.called p values).pulls = s.pulls := by
  simp [pulls, called, Event.isPull]

@[simp] theorem calls_looked : (s.looked table state note).calls = s.calls := by
  have hnone : s.stream.peek.events.filterMap Event.call? = [] := by
    rw [List.filterMap_eq_nil_iff]
    intro e he
    have hpull := TokenStream.isPull_of_mem_peek he
    cases e with
    | called p values => cases hpull
    | _ => rfl
  simp [calls, looked_events, hnone]

theorem pulls_looked : (s.looked table state note).pulls = s.pulls ++ s.stream.peek.events := by
  have hall : s.stream.peek.events.filter Event.isPull = s.stream.peek.events :=
    List.filter_eq_self.mpr fun e he => TokenStream.isPull_of_mem_peek he
  simp [pulls, looked_events, hall]

/-- A session over these items, in which `total` tokens are consumed or still to come. -/
structure Consumes (items : List RawToken) (total : Nat) (s : Session) : Prop where
  asked : ∃ n, s.stream.Asked items n ∧ s.pulls = pullsOf items n
  position : s.stream.position + s.stream.feed.tokens.length = total

namespace Consumes

variable {items : List RawToken} {total : Nat} {tok : Token}

/-- A look asks for what comes behind the tokens that were consumed. -/
theorem looked_pulls (h : Consumes items total s) (ahead : s.stream.feed.head = .ok tok) :
    (s.looked table state note).stream.Asked items (s.stream.position + 1) ∧
      (s.looked table state note).stream.position = s.stream.position ∧
      (s.looked table state note).pulls = pullsOf items (s.stream.position + 1) := by
  obtain ⟨n, hasked, hpulls⟩ := h.asked
  obtain ⟨hasked', hposition, hevents⟩ := hasked.peek ahead
  rw [pulls_looked, looked_stream, hpulls]
  exact ⟨hasked', hposition, hevents⟩

theorem looked (h : Consumes items total s) (ahead : s.stream.feed.head = .ok tok) :
    Consumes items total (s.looked table state note) := by
  obtain ⟨hasked, hposition, hpulls⟩ := h.looked_pulls ahead
  refine ⟨⟨_, hasked, hpulls⟩, ?_⟩
  rw [hposition, looked_feed ahead]
  exact h.position

theorem pass (h : Consumes items total s) (ahead : s.stream.ahead = some tok)
    (hend : tok.kind ≠ endName) : Consumes items total (s.pass tok) := by
  obtain ⟨n, hasked, hpulls⟩ := h.asked
  refine ⟨⟨n, hasked.pass ahead hend, hpulls⟩, ?_⟩
  have hhead : s.stream.feed.head = .ok tok := by
    rw [TokenStream.feed, ahead]
    exact Feed.head_before _ _
  have htokens := TokenStream.tokens_of_head hhead hend
  have hposition := h.position
  rw [htokens, List.length_cons] at hposition
  show s.stream.position + 1 + (s.stream.pass tok).feed.tokens.length = total
  rw [TokenStream.pass_feed ahead]
  omega

theorem called (h : Consumes items total s) (p : Production) (values : List Value) :
    Consumes items total (s.called p values) where
  asked := by
    rw [pulls_called]
    exact h.asked
  position := h.position

end Consumes

end Session

end Slr
