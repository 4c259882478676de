import Mathlib.Logic.Function.Iterate
import Slr.Parser.Stack
import Slr.Proofs.Derivation.Tree
import Slr.Proofs.Stream.Feed

/-! # What one move of the table-driven parser does

`step` opens here and nowhere else: one lemma for each thing that can be ahead,
a fault, no move, acceptance, a shift, a reduction. A parse is `next` again and
again, so a run of the parser is an iterate of a function, and what is ahead of
a session is the head of its stream's feed. What looking, passing and calling
keep is kept by every later move (`kept_later`). -/

namespace Slr

namespace Session

variable {table : Table} {state : Nat} {note : String → String → String} {s : Session} {t : Token}

/-- The session after the table was consulted. -/
def looked (s : Session) (table : Table) (state : Nat) (note : String → String → String) : Session :=
  (s.consult table state note).2

theorem consult_error {f : Fault} (h : s.stream.feed.head = .error f) :
    s.consult table state note = (.error (.fault f), s.looked table state note) := by
  have hpeek := s.stream.peek_result
  rw [h] at hpeek
  simp [consult, looked, hpeek]

theorem consult_ok (h : s.stream.feed.head = .ok t) :
    s.consult table state note =
      (.ok (t, table.move? state t.kind), s.looked table state note) := by
  have hpeek := s.stream.peek_result
  rw [h] at hpeek
  simp [consult, looked, hpeek]

theorem looked_stream : (s.looked table state note).stream = s.stream.peek.stream := by
  simp only [looked, consult]
  split <;> rfl

theorem looked_position : (s.looked table state note).stream.position = s.stream.position := by
  rw [looked_stream, TokenStream.peek_position]

theorem looked_events :
    (s.looked table state note).events = s.events.appendList s.stream.peek.events := by
  simp only [looked, consult]
  split <;> rfl

theorem looked_steps (h : s.stream.feed.head = .ok t) :
    (s.looked table state note).steps = match table.move? state t.kind with
      | some m => s.steps.push ⟨state, t.kind, m⟩
      | none => s.steps := by
  have hpeek := s.stream.peek_result
  rw [h] at hpeek
  cases hm : table.move? state t.kind <;> simp [looked, consult, hpeek, record, hm]

theorem looked_feed (h : s.stream.feed.head = .ok t) :
    (s.looked table state note).stream.feed = s.stream.feed := by
  rw [looked_stream]
  exact TokenStream.peek_feed (s.stream.peek_result.trans h)

theorem looked_ahead (h : s.stream.feed.head = .ok t) :
    (s.looked table state note).stream.ahead = some t := by
  rw [looked_stream]
  exact TokenStream.peek_ahead (s.stream.peek_result.trans h)

theorem looked_pass_feed (h : s.stream.feed.head = .ok t) :
    ((s.looked table state note).pass t).stream.feed = s.stream.feed.tail := by
  rw [pass, TokenStream.pass_feed (looked_ahead h), looked_feed h]

/-- The session after a call for the value of a production. -/
def called (s : Session) (p : Production) (values : List Value) : Session :=
  { s with events := s.events.push (.called p values) }

theorem reduce_eq (semantics : Semantics) (p : Production) (values : List Value) :
    s.reduce semantics p values = (semantics.value p values, s.called p values) := by
  unfold reduce Semantics.value called
  cases semantics p with
  | none => rfl
  | some action =>
    cases h : action.apply values with
    | ok v => simp [h]
    | error f => cases f <;> simp [h]

/-- The operations of the steps that a parse has taken. -/
def trace (s : Session) : List Operation := s.steps.toList.map Step.operation

@[simp] theorem trace_pass (s : Session) (t : Token) : (s.pass t).trace = s.trace := rfl

@[simp] theorem trace_called (s : Session) (p : Production) (values : List Value) :
    (s.called p values).trace = s.trace := rfl

@[simp] theorem stream_called (s : Session) (p : Production) (values : List Value) :
    (s.called p values).stream = s.stream := rfl

theorem trace_looked {m : Move} (h : s.stream.feed.head = .ok t)
    (hm : table.move? state t.kind = some m) :
    (s.looked table state note).trace = s.trace ++ [(⟨state, t.kind, m⟩ : Step).operation] := by
  simp [trace, looked_steps h, hm]

theorem trace_prefix_looked : s.trace <+: (s.looked table state note).trace := by
  cases ahead : s.stream.feed.head with
  | error f =>
    have hsame : (s.looked table state note).trace = s.trace := by
      simp [trace, looked, consult, s.stream.peek_result.trans ahead]
    exact hsame ▸ List.prefix_refl s.trace
  | ok tok =>
    cases hm : table.move? state tok.kind with
    | none =>
      have hsame : (s.looked table state note).trace = s.trace := by
        simp [trace, looked_steps ahead, hm]
      exact hsame ▸ List.prefix_refl s.trace
    | some m => exact trace_looked ahead hm ▸ List.prefix_append s.trace _

end Session

namespace StackParser

variable {table : Table} {semantics : Semantics} {state : Nat} {top : Value} {below : Stack}
  {s : Session} {t : Token}

/-- What a parse has come to: a status and a session. -/
abbrev Config := Status × Session

/-- One move, if the parse has not ended. -/
def next (table : Table) (semantics : Semantics) : Config → Config
  | (.running stack, s) => step table semantics stack s
  | c => c

/-- The outcome of a parse that has ended. -/
def outcome? : Config → Option (Outcome Value)
  | (.running _, _) => none
  | (.accepted v, s) => some (.ok v, s)
  | (.failed e, s) => some (.error e, s)

theorem session_of_outcome? {c : Config} {o : Outcome Value} (h : outcome? c = some o) :
    c.2 = o.2 := by
  obtain ⟨status, s⟩ := c
  cases status with
  | running stack => cases h
  | accepted v =>
    cases h
    rfl
  | failed e =>
    cases h
    rfl

theorem next_iterate_of_ended {c : Config} {o : Outcome Value} (h : outcome? c = some o) (n : Nat) :
    (next table semantics)^[n] c = c := by
  apply Function.iterate_fixed
  obtain ⟨status, s⟩ := c
  cases status with
  | running stack => simp [outcome?] at h
  | accepted v => rfl
  | failed e => rfl

/-- A run with so much fuel is so many moves. -/
theorem run_eq_iterate (fuel : Nat) (stack : Stack) (s : Session) :
    run table semantics fuel stack s =
      outcome? ((next table semantics)^[fuel] (.running stack, s)) := by
  induction fuel generalizing stack s with
  | zero => rfl
  | succ fuel ih =>
    rw [Function.iterate_succ_apply, run]
    show _ = outcome? ((next table semantics)^[fuel] (step table semantics stack s))
    rcases step table semantics stack s with ⟨status, s'⟩
    cases status with
    | running stack' => exact ih stack' s'
    | accepted v => rw [next_iterate_of_ended (o := (.ok v, s')) rfl]; rfl
    | failed e => rw [next_iterate_of_ended (o := (.error e, s')) rfl]; rfl

/-- A parse ends with an outcome if some number of moves leads to it. -/
def Ends (table : Table) (semantics : Semantics) (c : Config) (o : Outcome Value) : Prop :=
  ∃ n, outcome? ((next table semantics)^[n] c) = some o

theorem ends_iff_run {stack : Stack} {o : Outcome Value} :
    Ends table semantics (.running stack, s) o ↔
      ∃ fuel, run table semantics fuel stack s = some o := by
  simp [Ends, run_eq_iterate]

theorem outcome?_mono {c : Config} {o : Outcome Value} {n m : Nat} (hle : n ≤ m)
    (h : outcome? ((next table semantics)^[n] c) = some o) :
    outcome? ((next table semantics)^[m] c) = some o := by
  obtain ⟨k, rfl⟩ := Nat.exists_eq_add_of_le hle
  rw [Nat.add_comm, Function.iterate_add_apply, next_iterate_of_ended h]
  exact h

theorem parse?_mono {o : Outcome Value} {fuel fuel' : Nat} (hle : fuel ≤ fuel')
    (h : parse? table semantics fuel s = some o) : parse? table semantics fuel' s = some o := by
  rw [parse?, run_eq_iterate] at h ⊢
  exact outcome?_mono hle h

/-- What comes of a parse does not depend on how many moves it is given. -/
theorem Ends.unique {c : Config} {o o' : Outcome Value} (h : Ends table semantics c o)
    (h' : Ends table semantics c o') : o = o' := by
  obtain ⟨n, hn⟩ := h
  obtain ⟨m, hm⟩ := h'
  have hmax := outcome?_mono (Nat.le_max_left n m) hn
  rw [outcome?_mono (Nat.le_max_right n m) hm] at hmax
  exact (Option.some.inj hmax).symm

theorem running_of_next {c : Config} {stack : Stack}
    (h : next table semantics c = (.running stack, s)) : ∃ stack' s', c = (.running stack', s') := by
  obtain ⟨status, s'⟩ := c
  cases status with
  | running stack' => exact ⟨stack', s', rfl⟩
  | accepted v => cases h
  | failed e => cases h

theorem running_of_iterate {c : Config} {stack : Stack} {n m : Nat}
    (h : (next table semantics)^[n] c = (.running stack, s)) (hm : m ≤ n) :
    ∃ stack' s', (next table semantics)^[m] c = (.running stack', s') := by
  induction n generalizing stack s with
  | zero =>
    obtain rfl : m = 0 := Nat.le_zero.mp hm
    exact ⟨stack, s, h⟩
  | succ n ih =>
    rcases Nat.eq_or_lt_of_le hm with rfl | hlt
    · exact ⟨stack, s, h⟩
    · rw [Function.iterate_succ_apply'] at h
      obtain ⟨stack', s', hn⟩ := running_of_next h
      exact ih hn (Nat.le_of_lt_succ hlt)

/-- A parse that has ended made a last move. -/
theorem last_move {stack : Stack} {o : Outcome Value} {n : Nat}
    (h : outcome? ((next table semantics)^[n] (.running stack, s)) = some o) :
    ∃ m stack' s', m < n ∧
      (next table semantics)^[m] (.running stack, s) = (.running stack', s') ∧
      outcome? (next table semantics (.running stack', s')) = some o := by
  induction n with
  | zero => cases h
  | succ n ih =>
    rcases hc : (next table semantics)^[n] (.running stack, s) with ⟨status, s'⟩
    rw [Function.iterate_succ_apply', hc] at h
    cases status with
    | running stack' => exact ⟨n, stack', s', Nat.lt_succ_self n, hc, h⟩
    | accepted v =>
      obtain ⟨m, stack', s'', hm, hrest⟩ := ih (hc ▸ h)
      exact ⟨m, stack', s'', Nat.lt_succ_of_lt hm, hrest⟩
    | failed e =>
      obtain ⟨m, stack', s'', hm, hrest⟩ := ih (hc ▸ h)
      exact ⟨m, stack', s'', Nat.lt_succ_of_lt hm, hrest⟩

/-! ## One lemma for each thing ahead -/

/-- The session of a stack's move after it has looked at what is ahead. -/
def looked (table : Table) (stack : Stack) (state : Nat) (s : Session) : Session :=
  s.looked table state (note stack)

section Looked

variable {stack : Stack} (h : s.stream.feed.head = .ok t)

include h

theorem looked_feed : (looked table stack state s).stream.feed = s.stream.feed :=
  Session.looked_feed h

theorem ahead_looked : (looked table stack state s).stream.ahead = some t :=
  Session.looked_ahead h

theorem passed_feed : ((looked table stack state s).pass t).stream.feed = s.stream.feed.tail :=
  Session.looked_pass_feed h

theorem looked_trace {m : Move} (hm : table.move? state t.kind = some m) :
    (looked table stack state s).trace = s.trace ++ [(⟨state, t.kind, m⟩ : Step).operation] :=
  Session.trace_looked h hm

end Looked

theorem next_fault {f : Fault} (h : s.stream.feed.head = .error f) :
    next table semantics (.running ((state, top) :: below), s) =
      (.failed (.fault f), looked table ((state, top) :: below) state s) := by
  simp only [next, step, Session.consult_error h, looked]

theorem next_unexpected (h : s.stream.feed.head = .ok t) (hm : table.move? state t.kind = none) :
    next table semantics (.running ((state, top) :: below), s) =
      (.failed (Session.unexpected table state t),
        looked table ((state, top) :: below) state s) := by
  simp only [next, step, Session.consult_ok h, hm, looked]

theorem next_accept (h : s.stream.feed.head = .ok t)
    (hm : table.move? state t.kind = some .accept) :
    next table semantics (.running ((state, top) :: below), s) =
      (.accepted top, (looked table ((state, top) :: below) state s).pass t) := by
  simp only [next, step, Session.consult_ok h, hm, looked]

theorem next_shift {target : Nat} (h : s.stream.feed.head = .ok t)
    (hm : table.move? state t.kind = some (.shift target)) :
    next table semantics (.running ((state, top) :: below), s) =
      (.running ((target, t.value) :: (state, top) :: below),
        (looked table ((state, top) :: below) state s).pass t) := by
  simp only [next, step, Session.consult_ok h, hm, looked]

/-- The values of the symbols on top of a stack, from left to right. -/
def topValues (n : Nat) (stack : Stack) : List Value := (stack.take n).reverse.map Prod.snd

theorem next_reduce {p : Production} (h : s.stream.feed.head = .ok t)
    (hm : table.move? state t.kind = some (.reduce p)) :
    next table semantics (.running ((state, top) :: below), s) =
      (match semantics.value p (topValues p.size ((state, top) :: below)) with
        | .ok v => push table p.lhs v (((state, top) :: below).drop p.size)
        | .error e => .failed e,
        (looked table ((state, top) :: below) state s).called p
          (topValues p.size ((state, top) :: below))) := by
  simp only [next, step, Session.consult_ok h, hm, Session.reduce_eq, looked, topValues]
  split <;> simp_all

/-! ## What moves keep -/

section Kept

variable {I : Session → Prop} {c : Config} {n m : Nat}
  (look : ∀ stack q s, I s → I (looked table stack q s))
  (pass : ∀ s tok, I s → I (s.pass tok)) (call : ∀ s p values, I s → I (s.called p values))

include look pass call

/-- What looking, passing and calling keep is kept by a move. -/
theorem kept_next (h : I c.2) : I (next table semantics c).2 := by
  obtain ⟨status, s⟩ := c
  cases status with
  | accepted v => exact h
  | failed error => exact h
  | running stack =>
    cases stack with
    | nil => exact h
    | cons top below =>
      obtain ⟨q, v⟩ := top
      have hlooked := look ((q, v) :: below) q s h
      cases ahead : s.stream.feed.head with
      | error f => rwa [next_fault ahead]
      | ok tok =>
        cases hm : table.move? q tok.kind with
        | none => rwa [next_unexpected ahead hm]
        | some m =>
          cases m with
          | accept =>
            rw [next_accept ahead hm]
            exact pass _ tok hlooked
          | shift r =>
            rw [next_shift ahead hm]
            exact pass _ tok hlooked
          | reduce p =>
            rw [next_reduce ahead hm]
            exact call _ p _ hlooked

theorem kept_later (hle : n ≤ m) (h : I ((next table semantics)^[n] c).2) :
    I ((next table semantics)^[m] c).2 := by
  induction hle with
  | refl => exact h
  | step _ ih =>
    rw [Function.iterate_succ_apply']
    exact kept_next look pass call ih

end Kept

/-- What a parse has done is the beginning of what it has done later. -/
theorem trace_later (table : Table) (semantics : Semantics) (c : Config) {n m : Nat} (hle : n ≤ m) :
    ((next table semantics)^[n] c).2.trace <+: ((next table semantics)^[m] c).2.trace :=
  kept_later (I := fun s => _ <+: s.trace) (fun _ _ _ h => h.trans Session.trace_prefix_looked)
    (fun _ _ h => h) (fun _ _ _ h => h) hle (List.prefix_refl _)

end StackParser

end Slr
