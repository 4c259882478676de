import Slr.Proofs.Parser.Nesting

/-! # What the parsers take for granted

A parser that reduces takes for granted that it holds the values of the right hand
side and that the state below them has the goto; one that accepts, that it holds a
value. On a table that was built this is so at every moment of every parse, whatever
the lookahead sets, the source and the actions: a state lies on the way along what
was read, and its items vouch for what is below it. -/

namespace Slr

/-- Whether an error says that the table does not fit the values at hand. -/
def ParseError.isInternal : ParseError → Bool
  | corrupt _ | outOfRange => true
  | _ => false

/-- What is taken for granted in a move, over these states, the top first, and with these
values at hand. -/
def Granted (t : Table) (states : List Nat) (values : List Value) : Move → Prop
  | .shift target => target < t.size
  | .reduce p => p.size ≤ values.length ∧ ∃ q rest target,
      states.drop p.size = q :: rest ∧ t.goto? q p.lhs = some target ∧ target < t.size
  | .accept => values ≠ []

/-- All states are in the table, and each move of the one on top is granted. -/
structure Secure (t : Table) (states : List Nat) (values : List Value) : Prop where
  inside : ∀ q ∈ states, q < t.size
  top : ∃ q rest, states = q :: rest ∧
    ∀ k m, t.move? q k = some m → Granted t states values m

variable {g : Grammar} {follow : Lookahead} {t : Table} {semantics : Semantics} {s s' : Session}
  {q : Nat} {qs : List Nat} {xs : List Symbol} {values : List Value} {e : ParseError}

namespace Automaton

variable {a : Automaton}

/-- A table has a row of moves, one of gotos and a depth for each state. -/
theorem table_size (h : a.table follow = .ok t) :
    t.size = a.size ∧ t.gotos.length = a.size ∧ t.depths.length = a.size := by
  obtain ⟨all, hall, -, rfl⟩ := table_ok h
  have hlength : all.length = a.size := by simpa using mapM_length hall
  simp [Table.size, tableOf, hlength, size]

namespace Canonical

variable (h : Canonical g a)

include h

theorem top_lt (way : Spells a (q :: qs) xs) : q < a.size := by
  obtain ⟨it, hit⟩ := h.exists_item way
  exact lt_of_mem_items hit

theorem forall_lt (way : Spells a qs xs) : ∀ q ∈ qs, q < a.size := by
  induction way with
  | bottom =>
    intro q hq
    obtain rfl := List.mem_singleton.mp hq
    exact h.top_lt .bottom
  | push way edge ih =>
    intro q hq
    rcases List.mem_cons.mp hq with rfl | hq
    · exact h.top_lt (way.push edge)
    · exact ih q hq

/-- With as many values as its depth, a state on a way has what its moves need. -/
theorem secure (ht : a.table follow = .ok t) (way : Spells a (q :: qs) xs)
    (hvalues : t.depth q ≤ values.length) : Secure t (q :: qs) values := by
  have hr := table_renders h ht
  have hsize := (table_size ht).1
  have hbounded := h.bounded hr q
  refine ⟨fun r hmem => hsize ▸ h.forall_lt way r hmem, q, qs, rfl, ?_⟩
  intro k m hm
  cases m with
  | shift target =>
    obtain ⟨-, edge⟩ := hr.shift hm
    exact Nat.lt_of_lt_of_eq (h.top_lt (way.push edge)) hsize.symm
  | reduce p =>
    have hdepth := hbounded.reduce hm
    obtain ⟨it, hit, rfl, hnext⟩ := hr.reduce hm
    obtain ⟨ys, q', rest, r, -, hdrop, hbelow, edge⟩ := h.exists_goto way hit hnext
    exact ⟨Nat.le_trans hdepth hvalues, q', rest, r, hdrop, (hr.goto _ _).trans edge,
      hsize ▸ h.top_lt (hbelow.push edge)⟩
  | accept =>
    exact List.ne_nil_of_length_pos (Nat.lt_of_lt_of_le (hbounded.accept hm) hvalues)

end Canonical

end Automaton

/-! ## Errors -/

theorem Semantics.value_error {p : Production} (h : semantics.value p values = .error e) :
    e.isInternal = false := by
  obtain ⟨-, f, -, -, rfl | rfl⟩ := Semantics.fault_of_value h
  · rfl
  · rfl

theorem StackParser.ends_not_internal (hr : t.Renders (Automaton.build g) follow)
    (h : Ends t semantics (.running bottom, s) (.error e, s')) : e.isInternal = false := by
  cases ending_of_ends hr h with
  | unexpected => rfl
  | fault => rfl
  | failed _ fails => exact Semantics.value_error fails

namespace Ascent

open StackParser

theorem parse?_not_internal (hr : t.Renders (Automaton.build g) follow) {limit fuel : Nat}
    {o : Outcome Value} (h : parse? t semantics limit fuel s = some o) (he : o.1 = .error e) :
    e.isInternal = false := by
  cases concludes hr h with
  | ended _ ends =>
    obtain rfl := he
    exact ends_not_internal hr ends
  | exhausted =>
    cases he
    rfl
  | outgrown =>
    cases he
    rfl

/-- The call on top of those that mirror a stack is secure. -/
theorem Mirrors.secure (ht : (Automaton.build g).table follow = .ok t) {stack : Stack}
    {calls : List Call} (h : Mirrors t stack calls)
    (way : (Automaton.build g).Spells (stack.map Prod.fst) xs) :
    ∃ call outer, calls = call :: outer ∧ Secure t (calls.map Call.state) call.held := by
  have hc := Automaton.build_canonical g
  rw [h.states]
  cases h with
  | bottom v =>
    refine ⟨_, _, rfl, hc.secure ht .bottom ?_⟩
    rw [(Automaton.table_renders hc ht).depth]
    exact hc.depth_le .bottom
  | push h depth_le =>
    refine ⟨_, _, rfl, hc.secure ht way ?_⟩
    rw [length_topValues (Nat.le_succ_of_le depth_le)]

end Ascent

namespace StackParser

open Ascent

/-- On a table that was built, whatever the lookahead sets, what the parsers take for
granted is so in every parse: at each move of the table-driven parser over its stack,
the value at the bottom apart, and at each entry of a procedure over the calls that
are open, with the values that the new one holds. Neither parse ends with an error
of its own, however many calls may be open. -/
theorem parse_secure (ht : (Automaton.build g).table follow = .ok t) (semantics : Semantics)
    (s : Session) :
    (t.gotos.length = t.size ∧ t.depths.length = t.size) ∧
    (∀ n stack s', (next t semantics)^[n] (.running bottom, s) = (.running stack, s') →
      Secure t (stack.map Prod.fst) (stack.dropLast.map Prod.snd)) ∧
    (∀ (limit fuel n : Nat) (e : Entry), (entries t semantics limit fuel s)[n]? = some e →
      ∃ call outer, e.calls = call :: outer ∧ Secure t (e.calls.map Call.state) call.held) ∧
    ∀ limit fuel result s' e,
      parse? t semantics fuel s = some (result, s') ∨
        Ascent.parse? t semantics limit fuel s = some (result, s') →
      result = .error e → e.isInternal = false := by
  have hc := Automaton.build_canonical g
  have hr := Automaton.table_renders hc ht
  obtain ⟨hsize, hgotos, hdepths⟩ := Automaton.table_size ht
  refine ⟨⟨hgotos.trans hsize.symm, hdepths.trans hsize.symm⟩, ?_, ?_, ?_⟩
  · intro n stack s' hrun
    obtain ⟨forest, hreads⟩ := reads_iterate hr hrun
    have way := hreads.represents.way
    obtain ⟨q, v, below, rfl⟩ := exists_top way
    refine hc.secure ht way ?_
    rw [hr.depth]
    simpa using hc.depth_le way
  · intro limit fuel n e he
    obtain ⟨stack, s', hrun, -, hmirrors, -⟩ := (tracks_parse hr semantics limit fuel s).entry n e he
    obtain ⟨forest, hreads⟩ := reads_iterate hr hrun
    exact hmirrors.secure ht hreads.represents.way
  · intro limit fuel result s' e h he
    rcases h with h | h
    · subst he
      exact ends_not_internal hr (ends_iff_run.mpr ⟨fuel, h⟩)
    · exact parse?_not_internal hr h he

/-- Behind the second item both parsers are about to reduce. -/
theorem parse_secure_listing :
    ∃ stack s' e, (next listingTable .default)^[4] (.running bottom, .ofStream twoItems) =
        (.running stack, s') ∧
      (entries listingTable .default 3 9 (.ofStream twoItems))[4]? = some e ∧
      Secure listingTable (stack.map Prod.fst) (stack.dropLast.map Prod.snd) ∧
      ∃ call outer, e.calls = call :: outer ∧
        Secure listingTable (e.calls.map Call.state) call.held := by
  obtain ⟨-, hstack, hentry, -⟩ := parse_secure listing_table .default (.ofStream twoItems)
  exact ⟨_, _, _, rfl, rfl, hstack 4 _ _ rfl, hentry 3 9 4 _ rfl⟩

end StackParser

end Slr
