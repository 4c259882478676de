import Mathlib.Computability.Primrec.List
import Mathlib.Computability.TuringMachine.StackTuringMachine
import Mathlib.Data.List.Permutation
import Slr.Proofs.Automaton.Viable
import Slr.Proofs.Derivation.Rightmost
import Slr.Proofs.Derivation.Shape
import Slr.Proofs.Parser.Moves
import Slr.Proofs.Table.Entries

/-! # The stack of a parse stands over a forest

At every moment of a parse the stack's states lie on the way along the roots of
a forest, its values are the values of the trees, and the trees stand over the
tokens that were consumed. No move breaks this, whatever the lookahead sets say:
a reduction always finds its right hand side on top of the stack, and below it a
state with the goto. -/

namespace Slr.StackParser

open ParseTree

variable {g : Grammar} {semantics : Semantics} {follow : Lookahead} {t : Table} {stack : Stack}
  {forest : List ParseTree} {q r : Nat} {v w : Value} {below : Stack} {s : Session}
  {it : Item} {T : ParseTree}

theorem exists_top {a : Automaton} {xs : List Symbol} (way : a.Spells (stack.map Prod.fst) xs) :
    ∃ q v below, stack = (q, v) :: below := by
  cases stack with
  | nil => cases way.length
  | cons e below => exact ⟨e.1, e.2, below, rfl⟩

/-- A stack and the forest it stands over, both with the last on top. -/
structure Represents (g : Grammar) (semantics : Semantics) (stack : Stack)
    (forest : List ParseTree) : Prop where
  way : (Automaton.build g).Spells (stack.map Prod.fst) (forest.map root)
  valid : ∀ T ∈ forest, T.Valid g
  values : ∃ vs, evalAll semantics forest.reverse = .ok vs ∧
    stack.map Prod.snd = vs.reverse ++ [.none]

namespace Represents

theorem bottom (g : Grammar) (semantics : Semantics) :
    Represents g semantics StackParser.bottom [] where
  way := .bottom
  valid := by simp
  values := ⟨[], rfl, rfl⟩

/-- One more tree, over the edge along its root. -/
theorem push (h : Represents g semantics ((q, v) :: below) forest) (hT : T.Valid g)
    (hw : eval semantics T = .ok w)
    (edge : ((Automaton.build g).successorsOf q).lookup T.root = some r) :
    Represents g semantics ((r, w) :: (q, v) :: below) (T :: forest) where
  way := h.way.push edge
  valid := fun U hU => by
    rcases List.mem_cons.mp hU with rfl | hU
    · exact hT
    · exact h.valid U hU
  values := by
    obtain ⟨vs, hvs, hstack⟩ := h.values
    refine ⟨vs ++ [w], ?_, by simpa using hstack⟩
    rw [List.reverse_cons]
    exact evalAll_append hvs (evalAll_singleton hw)

/-- An item at its end finds the trees of its right hand side on top, and below
them a state that expects its left hand side. -/
theorem reduce (h : Represents g semantics ((q, v) :: below) forest)
    (hit : it ∈ (Automaton.build g).items q) (hnext : it.next = none) :
    ∃ children rest q' v' below' r,
      forest = children.reverse ++ rest ∧ it.production ∈ g.productions ∧
      children.map root = it.production.rhs ∧
      evalAll semantics children = .ok (topValues it.production.size ((q, v) :: below)) ∧
      ((q, v) :: below).drop it.production.size = (q', v') :: below' ∧
      ((Automaton.build g).successorsOf q').lookup (.nonterminal it.production.lhs) = some r ∧
      Represents g semantics ((q', v') :: below') rest := by
  have hc := Automaton.build_canonical g
  obtain ⟨ys, q', qs', r, hroots, hstates, hway, edge⟩ := hc.exists_goto h.way hit hnext
  obtain ⟨top, rest, rfl, htop, rfl⟩ := List.map_eq_append_iff.mp hroots
  have hsize : it.production.size = top.length := by
    simpa [Production.size] using congrArg List.length htop.symm
  -- the values are those of the trees below, and those of the trees on top
  obtain ⟨vs, hvs, hstack⟩ := h.values
  rw [List.reverse_append] at hvs
  obtain ⟨vs₁, vs₂, h₁, h₂, rfl⟩ := evalAll_append_inv hvs
  have hlen : top.length = vs₂.reverse.length := by simpa using (evalAll_length h₂).symm
  rw [List.reverse_append, List.append_assoc] at hstack
  have hdrop : (((q, v) :: below).drop it.production.size).map Prod.snd = vs₁.reverse ++ [.none] := by
    rw [List.map_drop, hstack, hsize, hlen, List.drop_left]
  have htake : topValues it.production.size ((q, v) :: below) = vs₂ := by
    rw [topValues, List.map_reverse, List.map_take, hstack, hsize, hlen, List.take_left,
      List.reverse_reverse]
  obtain ⟨⟨_, v'⟩, below', hbelow, rfl, rfl⟩ := List.map_eq_cons_iff.mp
    ((List.map_drop (f := Prod.fst) (l := (q, v) :: below)).trans hstates)
  rw [hbelow] at hdrop
  have hprod := ((hc.mem_items_iff h.way).mp hit).production_mem
  exact ⟨top.reverse, rest, _, v', below', r, by simp, hprod, by simp [List.map_reverse, htop],
    htake ▸ h₂, hbelow, edge, hway, fun U hU => h.valid U (List.mem_append_right _ hU), vs₁, h₁, hdrop⟩

/-- Before the end of the input the forest is one tree of the start symbol. -/
theorem accept (h : Represents g semantics ((q, v) :: below) forest)
    (hit : it ∈ (Automaton.build g).items q) (hnext : it.next = some (.terminal endName)) :
    ∃ T, forest = [T] ∧ T.Valid g ∧ T.root = .nonterminal g.start ∧ eval semantics T = .ok v := by
  have hvalid := ((Automaton.build_canonical g).mem_items_iff h.way).mp hit
  obtain ⟨ys, hroots, hys⟩ := hvalid.start_of_next_end hnext
  obtain ⟨T, rest, rfl, hT, rfl⟩ := List.map_eq_cons_iff.mp hroots
  have hTvalid := h.valid T (by simp)
  obtain ⟨vs, hvs, hstack⟩ := h.values
  rcases hys with hnil | hgoal
  · obtain rfl := List.map_eq_nil_iff.mp hnil
    refine ⟨T, rfl, hTvalid, hT, ?_⟩
    obtain ⟨w, ws, hw, hws, rfl⟩ := evalAll_cons_inv hvs
    cases hws
    simp only [List.map_cons, List.reverse_singleton, List.singleton_append,
      List.cons.injEq] at hstack
    rw [hstack.1, hw]
  · exact absurd hT (hTvalid.root_ne_start hgoal)

end Represents

/-! ## One move -/

/-- What one move makes of a parse over a forest. -/
inductive Moved (g : Grammar) (semantics : Semantics) (t : Table) (stack : Stack) (q : Nat)
    (forest : List ParseTree) (s : Session) : Config → Prop
  | fault {f : Fault} (ahead : s.stream.feed.head = .error f) :
      Moved g semantics t stack q forest s (.failed (.fault f), looked t stack q s)
  | unexpected {tok : Token} (ahead : s.stream.feed.head = .ok tok)
      (no_move : t.move? q tok.kind = none) :
      Moved g semantics t stack q forest s
        (.failed (Session.unexpected t q tok), looked t stack q s)
  | accept {tok : Token} {T : ParseTree} {v : Value} (ahead : s.stream.feed.head = .ok tok)
      (move : t.move? q tok.kind = some .accept) (ends : tok.kind = endName)
      (one : forest = [T]) (valid : T.Valid g) (root : T.root = .nonterminal g.start)
      (value : eval semantics T = .ok v) :
      Moved g semantics t stack q forest s (.accepted v, (looked t stack q s).pass tok)
  | shift {tok : Token} {r : Nat} {stack' : Stack} (ahead : s.stream.feed.head = .ok tok)
      (move : t.move? q tok.kind = some (.shift r)) (goes_on : tok.kind ≠ endName)
      (represents : Represents g semantics stack' (.leaf tok :: forest)) :
      Moved g semantics t stack q forest s (.running stack', (looked t stack q s).pass tok)
  | reduce {tok : Token} {p : Production} {children rest : List ParseTree} {values : List Value}
      {stack' : Stack} (ahead : s.stream.feed.head = .ok tok)
      (move : t.move? q tok.kind = some (.reduce p)) (handle : forest = children.reverse ++ rest)
      (operands : evalAll semantics children = .ok values)
      (represents : Represents g semantics stack' (.node p children :: rest)) :
      Moved g semantics t stack q forest s
        (.running stack', (looked t stack q s).called p values)
  | failed {tok : Token} {p : Production} {children rest : List ParseTree} {values : List Value}
      {e : ParseError} (ahead : s.stream.feed.head = .ok tok)
      (move : t.move? q tok.kind = some (.reduce p)) (handle : forest = children.reverse ++ rest)
      (operands : evalAll semantics children = .ok values)
      (valid : (ParseTree.node p children).Valid g) (fails : semantics.value p values = .error e) :
      Moved g semantics t stack q forest s (.failed e, (looked t stack q s).called p values)

theorem next_moved (hr : t.Renders (Automaton.build g) follow)
    (h : Represents g semantics ((q, v) :: below) forest) (s : Session) :
    Moved g semantics t ((q, v) :: below) q forest s
      (next t semantics (.running ((q, v) :: below), s)) := by
  cases hhead : s.stream.feed.head with
  | error f =>
    rw [next_fault hhead]
    exact .fault hhead
  | ok tok =>
    cases hm : t.move? q tok.kind with
    | none =>
      rw [next_unexpected hhead hm]
      exact .unexpected hhead hm
    | some m =>
      cases m with
      | shift r =>
        obtain ⟨hend, edge⟩ := hr.shift hm
        rw [next_shift hhead hm]
        exact .shift hhead hm hend (h.push (.leaf tok) rfl edge)
      | accept =>
        obtain ⟨hend, it, hit, hnext⟩ := hr.accept hm
        obtain ⟨T, hone, hT, hroot, hvalue⟩ := h.accept hit hnext
        rw [next_accept hhead hm]
        exact .accept hhead hm hend hone hT hroot hvalue
      | reduce p =>
        obtain ⟨it, hit, rfl, hnext⟩ := hr.reduce hm
        obtain ⟨children, rest, q', v', below', r, hforest, hp, hroots, hvalues, hdrop, edge, hrest⟩ :=
          h.reduce hit hnext
        have hnode : (ParseTree.node it.production children).Valid g :=
          .node hp hroots fun c hc => h.valid c (by simp [hforest, hc])
        rw [next_reduce hhead hm]
        cases hv : semantics.value it.production
            (topValues it.production.size ((q, v) :: below)) with
        | error e => exact .failed hhead hm hforest hvalues hnode hv
        | ok w =>
          have hgoto : t.goto? q' it.production.lhs = some r := by rw [hr.goto, edge]
          simp only [hdrop, StackParser.push, hgoto]
          exact .reduce hhead hm hforest hvalues
            (hrest.push hnode (by rw [eval, hvalues]; exact hv) edge)

/-! ## Many moves -/

/-- After `n` moves a parse that runs has read the tokens under its forest, and
its trace builds the forest. -/
structure Reads (g : Grammar) (semantics : Semantics) (s₀ : Session) (n : Nat) (stack : Stack)
    (s : Session) (forest : List ParseTree) : Prop where
  represents : Represents g semantics stack forest
  tokens : s₀.stream.feed.tokens = tokensOf forest.reverse ++ s.stream.feed.tokens
  ending : s.stream.feed.ending = s₀.stream.feed.ending
  trace : s.trace = s₀.trace ++ operationsOf forest.reverse
  count : (operationsOf forest.reverse).length = n
  position : s.stream.position = s₀.stream.position + (tokensOf forest.reverse).length

namespace Reads

variable {s₀ : Session} {n : Nat} {stack' : Stack} {tok : Token}

theorem start (g : Grammar) (semantics : Semantics) (s₀ : Session) :
    Reads g semantics s₀ 0 StackParser.bottom s₀ [] where
  represents := .bottom g semantics
  tokens := by simp [tokensOf]
  ending := rfl
  trace := by simp [operationsOf]
  count := rfl
  position := rfl

theorem shift (h : Reads g semantics s₀ n stack s forest) (ahead : s.stream.feed.head = .ok tok)
    (move : t.move? q tok.kind = some (.shift r)) (goes_on : tok.kind ≠ endName)
    (represents : Represents g semantics stack' (.leaf tok :: forest)) :
    Reads g semantics s₀ (n + 1) stack' ((looked t stack q s).pass tok) (.leaf tok :: forest) where
  represents := represents
  tokens := by
    rw [passed_feed ahead, h.tokens, TokenStream.tokens_of_head ahead goes_on]
    simp [tokensOf_append, ParseTree.tokens]
  ending := by
    rw [passed_feed ahead]
    exact h.ending
  trace := by
    rw [Session.trace_pass, looked_trace ahead move, h.trace]
    simp [operationsOf_append, Step.operation, operations]
  count := by simp [operationsOf_append, operations, ← h.count]
  position := by
    show (looked t stack q s).stream.position + 1 = _
    rw [looked, Session.looked_position, h.position]
    simp [tokensOf_append, ParseTree.tokens, Nat.add_assoc]

theorem reduce {p : Production} {children rest : List ParseTree} {values : List Value}
    (h : Reads g semantics s₀ n stack s (children.reverse ++ rest))
    (ahead : s.stream.feed.head = .ok tok) (move : t.move? q tok.kind = some (.reduce p))
    (represents : Represents g semantics stack' (.node p children :: rest)) :
    Reads g semantics s₀ (n + 1) stack' ((looked t stack q s).called p values)
      (.node p children :: rest) where
  represents := represents
  tokens := by
    rw [Session.stream_called, looked_feed ahead, h.tokens]
    simp [tokensOf_append, ParseTree.tokens]
  ending := by rw [Session.stream_called, looked_feed ahead, h.ending]
  trace := by
    rw [Session.trace_called, looked_trace ahead move, h.trace]
    simp [operationsOf_append, Step.operation, operations]
  count := by simp [operationsOf_append, operations, ← h.count, Nat.add_assoc]
  position := by
    rw [Session.stream_called, looked, Session.looked_position, h.position]
    simp [tokensOf_append, ParseTree.tokens]

theorem next {s' : Session} (hr : t.Renders (Automaton.build g) follow)
    (h : Reads g semantics s₀ n stack s forest)
    (hnext : StackParser.next t semantics (.running stack, s) = (.running stack', s')) :
    ∃ forest', Reads g semantics s₀ (n + 1) stack' s' forest' := by
  obtain ⟨q, v, below, rfl⟩ := exists_top h.represents.way
  have hmoved := next_moved hr h.represents s
  rw [hnext] at hmoved
  cases hmoved with
  | shift ahead move goes_on represents => exact ⟨_, h.shift ahead move goes_on represents⟩
  | reduce ahead move handle operands represents =>
    subst handle
    exact ⟨_, h.reduce ahead move represents⟩

end Reads

theorem reads_iterate {s₀ : Session} {n : Nat} (hr : t.Renders (Automaton.build g) follow)
    (h : (next t semantics)^[n] (.running bottom, s₀) = (.running stack, s)) :
    ∃ forest, Reads g semantics s₀ n stack s forest := by
  induction n generalizing stack s with
  | zero =>
    cases h
    exact ⟨[], .start g semantics s₀⟩
  | succ n ih =>
    rw [Function.iterate_succ_apply'] at h
    obtain ⟨stack', s', hrun⟩ := running_of_next h
    rw [hrun] at h
    obtain ⟨forest, hreads⟩ := ih hrun
    exact hreads.next hr h

/-- What looking, passing and calling keep is kept by a parse that runs. -/
theorem session_iterate {I : Session → Prop} {s₀ : Session} {n : Nat}
    (hr : t.Renders (Automaton.build g) follow)
    (look : ∀ stack q s tok, I s → s.stream.feed.head = .ok tok → I (looked t stack q s))
    (pass : ∀ s tok, I s → s.stream.ahead = some tok → tok.kind ≠ endName → I (s.pass tok))
    (call : ∀ s p values, I s → I (s.called p values)) (start : I s₀)
    (h : (next t semantics)^[n] (.running bottom, s₀) = (.running stack, s)) : I s := by
  induction n generalizing stack s with
  | zero =>
    cases h
    exact start
  | succ n ih =>
    rw [Function.iterate_succ_apply'] at h
    obtain ⟨stack', s', hrun⟩ := running_of_next h
    obtain ⟨forest, hreads⟩ := reads_iterate hr hrun
    have hs' := ih hrun
    rw [hrun] at h
    obtain ⟨q, v, below, rfl⟩ := exists_top hreads.represents.way
    have hmoved := next_moved hr hreads.represents s'
    rw [h] at hmoved
    cases hmoved with
    | shift ahead _ goes_on => exact pass _ _ (look _ _ _ _ hs' ahead) (ahead_looked ahead) goes_on
    | reduce ahead => exact call _ _ _ (look _ _ _ _ hs' ahead)

/-- What a parse has come to before its last move, and what that move was. -/
theorem last_moved {s₀ : Session} {o : Outcome Value} {n : Nat}
    (hr : t.Renders (Automaton.build g) follow)
    (h : outcome? ((next t semantics)^[n] (.running bottom, s₀)) = some o) :
    ∃ m q v below s forest c,
      (next t semantics)^[m] (.running bottom, s₀) = (.running ((q, v) :: below), s) ∧
      Reads g semantics s₀ m ((q, v) :: below) s forest ∧
      Moved g semantics t ((q, v) :: below) q forest s c ∧ outcome? c = some o := by
  obtain ⟨m, stack, s, -, hrun, hlast⟩ := last_move h
  obtain ⟨forest, hreads⟩ := reads_iterate hr hrun
  obtain ⟨q, v, below, rfl⟩ := exists_top hreads.represents.way
  exact ⟨m, q, v, below, s, forest, _, hrun, hreads, next_moved hr hreads.represents s, hlast⟩

/-- The ends that a parse can come to: its own two, a fault of its source, and the
failure of a call that it made. -/
inductive Ending (semantics : Semantics) (s₀ s : Session) : Except ParseError Value → Prop
  | accepted (v : Value) : Ending semantics s₀ s (.ok v)
  | unexpected (tok : Token) (state : Nat) (expected : List String) :
      Ending semantics s₀ s (.error (.unexpectedToken tok state expected))
  | fault {src : Source} {f : Fault} (source : s₀.stream.source = some src)
      (item : .fault f ∈ src.items) : Ending semantics s₀ s (.error (.fault f))
  | failed {p : Production} {values : List Value} {e : ParseError}
      (call : .called p values ∈ s.events) (fails : semantics.value p values = .error e) :
      Ending semantics s₀ s (.error e)

theorem ending_of_ends {s₀ : Session} {result : Except ParseError Value}
    (hr : t.Renders (Automaton.build g) follow)
    (h : Ends t semantics (.running bottom, s₀) (result, s)) : Ending semantics s₀ s result := by
  obtain ⟨n, hn⟩ := h
  obtain ⟨m, q, v, below, s', forest, c, -, ⟨-, -, hending, -, -⟩, hmoved, hlast⟩ :=
    last_moved hr hn
  cases hmoved with
  | shift => cases hlast
  | reduce => cases hlast
  | accept =>
    cases hlast
    exact .accepted _
  | unexpected =>
    cases hlast
    exact .unexpected _ _ _
  | fault ahead =>
    cases hlast
    obtain ⟨src, hsrc, hitem⟩ := TokenStream.fault_of_feed_ending
      (hending.symm.trans (Feed.ending_of_head ahead))
    exact .fault hsrc hitem
  | failed _ _ _ _ _ fails =>
    cases hlast
    exact .failed (by simp [Session.called]) fails

/-! ## Soundness -/

/-- The value of a parse without actions is a derivation tree from the start
symbol over all tokens before the end of the input, and its reductions read
backwards are a rightmost derivation, whatever the lookahead sets. -/
theorem parse_sound (ht : (Automaton.build g).table follow = .ok t) {stream : TokenStream}
    {fuel : Nat} (h : parse? t .default fuel (.ofStream stream) = some (.ok v, s)) :
    ∃ T : ParseTree, T.Valid g ∧ T.root = .nonterminal g.start ∧
      T.tokens = stream.feed.tokens ∧ v = T.value ∧
      Rightmost g [.nonterminal g.start] (reductions s.trace).reverse
        ((stream.feed.tokens.map Token.kind).map .terminal) := by
  have hr := Automaton.table_renders (Automaton.build_canonical g) ht
  rw [parse?, run_eq_iterate] at h
  obtain ⟨n, q, top, below, s', forest, c, -, ⟨-, htokens, -, htrace, -⟩, hmoved, hlast⟩ :=
    last_moved hr h
  cases hmoved with
  | @accept tok T w ahead move ends one valid root value =>
    simp only [outcome?, Option.some.injEq, Prod.mk.injEq, Except.ok.injEq] at hlast
    obtain ⟨rfl, rfl⟩ := hlast
    subst one
    rw [eval_default, Except.ok.injEq] at value
    have hall : T.tokens = stream.feed.tokens := by
      have hnil := (TokenStream.tokens_eq_nil_of_head ahead ends).1
      simpa [Session.ofStream, hnil] using htokens.symm
    have hops : ((looked t ((q, top) :: below) q s').pass tok).trace = T.operations ++ [.accept] := by
      rw [Session.trace_pass, looked_trace ahead move, htrace]
      simp [Session.trace, Session.ofStream, Step.operation]
    have hright := rightmost_of_tree valid
    rw [root, kinds, hall] at hright
    refine ⟨T, valid, root, hall, value.symm, ?_⟩
    rw [hops, reductions_append]
    simpa [reductions] using hright
  | _ => simp [outcome?] at hlast

/-! ## A grammar to run

Lists of items, which are left recursive and may be empty. -/

def listing : Grammar where
  start := "list"
  productions :=
    [.goal "list", ⟨1, "list", [.nonterminal "list", .terminal "item"]⟩, ⟨2, "list", []⟩]
  wellFormed :=
    ⟨rfl, by decide, by decide, by decide, by simp [Production.goal],
      by simp [Production.goal, endName, goalName]⟩

def listingTable : Table where
  actions :=
    let more : Move := .reduce ⟨1, "list", [.nonterminal "list", .terminal "item"]⟩
    let none : Move := .reduce ⟨2, "list", []⟩
    [[("$", none), ("item", none)], [("$", .accept), ("item", .shift 2)],
      [("$", more), ("item", more)]]
  gotos := [[("list", 1)], [], []]
  depths := [0, 1, 2]
  productions := listing.productions
  states :=
    [["__goal -> * list $", "list -> * list item", "list -> *"],
      ["__goal -> list * $", "list -> list * item"], ["list -> list item *"]]

theorem listing_table : listing.table = .ok listingTable := by cbv

/-- Two items, the second after the first. -/
def twoItems : TokenStream := .ofItems [.pair "item" (.int 1), .pair "item" (.int 2)] true

theorem parse_sound_listing :
    ∃ v s, parse? listingTable .default 7 (.ofStream twoItems) = some (.ok v, s) ∧
      ∃ T : ParseTree, T.Valid listing ∧ T.root = .nonterminal "list" ∧
        T.tokens = twoItems.feed.tokens ∧ v = T.value ∧
        Rightmost listing [.nonterminal "list"] (reductions s.trace).reverse
          ((twoItems.feed.tokens.map Token.kind).map .terminal) := by
  obtain ⟨v, s, h⟩ : ∃ v s, parse? listingTable .default 7 (.ofStream twoItems) =
      some (.ok v, s) := ⟨_, _, rfl⟩
  exact ⟨v, s, h, parse_sound listing_table h⟩

end Slr.StackParser
