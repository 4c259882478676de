import Mathlib.Data.List.Infix
import Slr.Proofs.Derivation.Replay
import Slr.Proofs.Parser.Agreement
import Slr.Proofs.Parser.Events
import Slr.Proofs.Parser.Height

/-! # When actions are called

The calls of a parse are those of the nodes of its forest, children first. Over a
sentence a parse makes the moves that it would make if no action failed, up to the
first call that fails; the nodes of its forest are then the first nodes of the
sentence's tree, and the next is the one whose action fails. -/

namespace Slr

open ParseTree

/-- A call for the value of a node: of its production, on the values of its children. -/
def Visit.CalledBy (semantics : Semantics) (call : Production × List Value) (V : Visit) : Prop :=
  call.1 = V.production ∧ evalAll semantics V.children = .ok call.2

namespace StackParser

variable {g : Grammar} {semantics : Semantics} {follow : Lookahead} {t : Table} {stack : Stack}
  {s s' s₀ : Session} {T : ParseTree} {n : Nat} {c : Config} {e : Token} {items : List RawToken}
  {forest : List ParseTree} {result : Except ParseError Value} {visits : List Visit} {stop : Nat}

/-! ## The calls are the nodes of the forest -/

/-- A parse that runs has made a call for each node of its forest. -/
theorem calls_iterate (hr : t.Renders (Automaton.build g) follow)
    (h : (next t semantics)^[n] (.running bottom, s₀) = (.running stack, s)) :
    ∃ forest calls, Reads g semantics s₀ n stack s forest ∧ s.calls = s₀.calls ++ calls ∧
      List.Forall₂ (Visit.CalledBy semantics) calls (visitsOf 0 forest.reverse) := by
  induction n generalizing stack s with
  | zero =>
    cases h
    exact ⟨[], [], .start g semantics s₀, by simp, .nil⟩
  | succ n ih =>
    rw [Function.iterate_succ_apply'] at h
    obtain ⟨stack', s', hrun⟩ := running_of_next h
    rw [hrun] at h
    obtain ⟨forest, calls, hreads, hcalls, hvisits⟩ := ih hrun
    obtain ⟨q, v, below, rfl⟩ := exists_top hreads.represents.way
    have hmoved := next_moved hr hreads.represents s'
    rw [h] at hmoved
    cases hmoved with
    | shift ahead move goes_on represents =>
      refine ⟨_, calls, hreads.shift ahead move goes_on represents, ?_, ?_⟩
      · rw [Session.calls_pass, looked, Session.calls_looked, hcalls]
      · simpa [visitsOf_append, ParseTree.visits] using hvisits
    | @reduce tok p children rest values _ ahead move handle operands represents =>
      subst handle
      refine ⟨_, calls ++ [(p, values)], hreads.reduce ahead move represents, ?_, ?_⟩
      · rw [Session.calls_called, looked, Session.calls_looked, hcalls, List.append_assoc]
      · have hnode : List.Forall₂ (Visit.CalledBy semantics) [(p, values)]
            [⟨p, children, (tokensOf (rest.reverse ++ children)).length⟩] :=
          .cons ⟨rfl, operands⟩ .nil
        have happend := List.rel_append hvisits hnode
        simpa [visitsOf_append, ParseTree.visits, tokensOf_append] using happend

/-- Calls that a parse has made when it runs are the first of those that it makes until it ends. -/
theorem calls_before_end {o : Outcome Value}
    (hrun : (next t semantics)^[n] c = (.running stack, s)) (hends : Ends t semantics c o) :
    s.calls <+: o.2.calls := by
  obtain ⟨m, hm⟩ := hends
  have hlater := outcome?_mono (Nat.le_max_right n m) hm
  rw [← session_of_outcome? hlater]
  refine kept_later (I := fun s' => s.calls <+: s'.calls) ?_ ?_ ?_ (Nat.le_max_left n m) ?_
  · intro stack' q s' h
    rwa [looked, Session.calls_looked]
  · intro s' tok h
    rwa [Session.calls_pass]
  · intro s' p values h
    rw [Session.calls_called]
    exact h.trans (List.prefix_append _ _)
  · rw [hrun]

/-- What a parse that runs has consumed are the tokens under its forest. -/
theorem consumes_iterate (hr : t.Renders (Automaton.build g) follow) {total : Nat}
    (hstart : s₀.Consumes items total) (htotal : s₀.stream.feed.tokens.length = total)
    (hreads : Reads g semantics s₀ n stack s forest)
    (h : (next t semantics)^[n] (.running bottom, s₀) = (.running stack, s)) :
    s.Consumes items total ∧ s.stream.position = (tokensOf forest.reverse).length := by
  have hconsumes : s.Consumes items total :=
    session_iterate hr (fun _ _ _ _ hs ahead => hs.looked ahead)
      (fun _ _ hs ahead hend => hs.pass ahead hend) (fun _ _ _ hs => hs.called _ _) hstart h
  refine ⟨hconsumes, ?_⟩
  have hposition := hconsumes.position
  rw [← htotal, hreads.tokens, List.length_append] at hposition
  omega

/-! ## Sentences -/

/-- The calls that a session shows are those of these nodes, in order, and what was asked
of the source are the first `stop` items and the next. -/
structure Shows (semantics : Semantics) (items : List RawToken) (visits : List Visit) (stop : Nat)
    (s : Session) : Prop where
  calls : List.Forall₂ (Visit.CalledBy semantics) s.calls visits
  pulls : s.pulls = pullsOf items (stop + 1)

/-- A parse whose next call fails has come by the first nodes of the sentence's tree. -/
theorem Breaks.course {q : Nat} {v : Value} {below : Stack} {p : Production} {error : ParseError}
    (h : Breaks t semantics q v below s p error) (hr : t.Renders (Automaton.build g) follow)
    (hT : T.Valid g) (hfeed : s₀.stream.feed = ⟨T.tokens, .ok e⟩) (hcalls₀ : s₀.calls = [])
    (hconsumes₀ : s₀.Consumes items T.tokens.length)
    (hrun : (next t semantics)^[n] (.running bottom, s₀) = (.running ((q, v) :: below), s))
    (hops : s.trace ++ [.reduce p] <+: s₀.trace ++ T.operations) :
    ∃ visits stop s', Course semantics T (.error error) visits stop ∧
      next t semantics (.running ((q, v) :: below), s) = (.failed error, s') ∧
      Shows semantics items visits stop s' := by
  obtain ⟨tok, ahead, -⟩ := h.reduces
  obtain ⟨forest, calls, hreads, hcalls, hvisits⟩ := calls_iterate hr hrun
  obtain ⟨hconsumes, hposition⟩ := consumes_iterate hr hconsumes₀ (by rw [hfeed]) hreads hrun
  obtain ⟨children, rest, values, rfl, valid, operands, fails, hnext⟩ :=
    h.next_failed hr hreads.represents
  obtain ⟨-, hroots, -⟩ := valid.of_node
  obtain ⟨vs, hvs, -⟩ := hreads.represents.values
  have hforest : (children.reverse ++ rest).reverse = rest.reverse ++ children := by simp
  have htrace := hreads.trace
  have htokens := hreads.tokens
  rw [hforest] at htrace htokens hvisits hposition hvs
  obtain ⟨ops, hops⟩ := hops
  have htree : T.operations = operationsOf (rest.reverse ++ children) ++ .reduce p :: ops := by
    rw [htrace, List.append_assoc, List.append_assoc] at hops
    simpa using (List.append_cancel_left hops).symm
  obtain ⟨after, horder⟩ := visits_of_operations hT
    (fun U hU => hreads.represents.valid U (by simpa [or_comm] using hU))
    (by simp [Production.size, ← hroots]) htree
    ((congrArg Feed.tokens hfeed).symm.trans htokens)
  obtain ⟨action, f, hacts, hraises, rfl⟩ := Semantics.raises_of_value fails
  have hpulls : (looked t ((q, v) :: below) q s).pulls = pullsOf items (s.stream.position + 1) :=
    (hconsumes.looked_pulls ahead).2.2
  refine ⟨_, _, _, .raised horder ?_ operands hacts hraises, hnext, ?_, ?_⟩
  · exact visits_of_evalAll (fun U _ _ _ hU => visits_of_eval hU) hvs
  · rw [Session.calls_called, looked, Session.calls_looked, hcalls, hcalls₀, List.nil_append]
    exact List.rel_append hvisits (.cons ⟨rfl, operands⟩ .nil)
  · rw [Session.pulls_called, hpulls, hposition]

/-- A parse that accepts after the operations of the sentence's tree has called all its nodes. -/
theorem accept_course (hr : t.Renders (Automaton.build g) follow) (hT : T.Valid g)
    (hfeed : s₀.stream.feed = ⟨T.tokens, .ok e⟩) (hcalls₀ : s₀.calls = [])
    (hconsumes₀ : s₀.Consumes items T.tokens.length)
    (hrun : (next t semantics)^[n] (.running bottom, s₀) = (.running stack, s))
    (hops : s.trace = s₀.trace ++ T.operations) {w : Value}
    (haccept : next t semantics (.running stack, s) = (.accepted w, s')) :
    Course semantics T (.ok w) (T.visits 0) T.tokens.length ∧
      Shows semantics items (T.visits 0) T.tokens.length s' := by
  obtain ⟨forest, calls, hreads, hcalls, hvisits⟩ := calls_iterate hr hrun
  obtain ⟨hconsumes, hposition⟩ := consumes_iterate hr hconsumes₀ (by rw [hfeed]) hreads hrun
  obtain ⟨q, v, below, rfl⟩ := exists_top hreads.represents.way
  have hmoved := next_moved hr hreads.represents s
  rw [haccept] at hmoved
  cases hmoved with
  | @accept tok U _ ahead move ends one valid root value =>
    subst one
    obtain rfl : U = T := by
      refine eq_of_operations valid hT ?_ ?_
      · have htrace := hreads.trace
        rw [hops] at htrace
        simpa using (List.append_cancel_left htrace).symm
      · have htokens := hreads.tokens
        rw [hfeed, (TokenStream.tokens_eq_nil_of_head ahead ends).1] at htokens
        simpa using htokens.symm
    have hpulls : (looked t ((q, v) :: below) q s).pulls = pullsOf items (s.stream.position + 1) :=
      (hconsumes.looked_pulls ahead).2.2
    simp only [List.reverse_singleton, visitsOf_singleton, tokensOf_singleton] at hvisits hposition
    refine ⟨.whole value, ?_, ?_⟩
    · rw [Session.calls_pass, looked, Session.calls_looked, hcalls, hcalls₀, List.nil_append]
      exact hvisits
    · rw [Session.pulls_pass, hpulls, hposition]

/-- The parse of a sentence takes the course of the actions of its tree. -/
theorem exists_course (hr : t.Renders (Automaton.build g) g.follow) (semantics : Semantics)
    (hT : T.Valid g) (hroot : T.root = .nonterminal g.start)
    (hfeed : s₀.stream.feed = ⟨T.tokens, .ok e⟩) (hcalls₀ : s₀.calls = [])
    (hconsumes₀ : s₀.Consumes items T.tokens.length) :
    ∃ result visits stop s', Course semantics T result visits stop ∧
      Ends t semantics (.running bottom, s₀) (result, s') ∧
      Shows semantics items visits stop s' := by
  obtain ⟨w, hw⟩ := semantics.exists_forgiving_eval T
  obtain ⟨stack, s, s', hleads, haccept, -⟩ := sentence_reads hr hT hroot hw hfeed
  rcases iterate_forgiving t semantics (.running bottom, s₀) T.operations.length with
    hsame | ⟨m, hm, q, v, below, sₘ, p, error, hforgiven, hrun, hbreaks⟩
  · have hrun := hsame.symm.trans hleads.moves
    rcases next_forgiving t semantics (.running stack, s) with
      hnext | ⟨q, v, below, s₁, p, error, hc, hbreaks⟩
    · have haccept' := hnext.symm.trans haccept
      obtain ⟨hcourse, hshows⟩ :=
        accept_course hr hT hfeed hcalls₀ hconsumes₀ hrun hleads.trace haccept'
      refine ⟨_, _, _, s', hcourse, ⟨T.operations.length + 1, ?_⟩, hshows⟩
      rw [Function.iterate_succ_apply', hrun, haccept']
      rfl
    · rw [hc] at haccept
      exact absurd haccept (hbreaks.forgiven.1 w s')
  · -- without failure the parse goes on with this reduction
    have hops := trace_later t semantics.forgiving (.running bottom, s₀) (Nat.succ_le_of_lt hm)
    rw [Function.iterate_succ_apply', hforgiven, hbreaks.forgiven.2, hleads.moves,
      hleads.trace] at hops
    obtain ⟨visits, stop, s₂, hcourse, hfails, hshows⟩ :=
      hbreaks.course hr hT hfeed hcalls₀ hconsumes₀ hrun hops
    refine ⟨_, _, _, s₂, hcourse, ⟨m + 1, ?_⟩, hshows⟩
    rw [Function.iterate_succ_apply', hrun, hfails]
    rfl

theorem Shows.same (h : Shows semantics items visits stop s) (hsame : s'.Same s) :
    Shows semantics items visits stop s' where
  calls := by
    rw [Session.calls, hsame.events]
    exact h.calls
  pulls := by
    rw [Session.pulls, hsame.events]
    exact h.pulls

/-- Over a sentence the actions are called once for each node of its tree, children first
and from left to right, on the values of the children. If none of them raises anything,
the result of both parsers is the value of the tree. If one does, that is the result of
both; nothing is called behind it, and the source was asked for what comes next after
the node's tokens, but for no more. Only if fewer calls may be open than the tree takes
room, and one, may it be too deep for the recursive ascent parser, which then has made
the first of these calls and no others. -/
theorem actions_in_order (ht : g.table = .ok t) (hT : T.Valid g)
    (hroot : T.root = .nonterminal g.start)
    (hfeed : (TokenStream.ofItems items true).feed = ⟨T.tokens, .ok e⟩)
    (hactions : ∀ p action values message, semantics p = some action →
      action.apply values ≠ .error (.exhausted message)) :
    (∃ result visits stop, Course semantics T result visits stop) ∧
    ∀ result visits stop, Course semantics T result visits stop →
      BothEnd t semantics (.ofStream (.ofItems items true)) (T.room + 1)
          (fun o => o.1 = result ∧ Shows semantics items visits stop o.2) ∧
        ∀ limit fuel o,
          Ascent.parse? t semantics limit fuel (.ofStream (.ofItems items true)) = some o →
          ∃ done, done <+: visits ∧ List.Forall₂ (Visit.CalledBy semantics) o.2.calls done := by
  have hr := Grammar.table_renders ht
  have hconsumes : (Session.ofStream (.ofItems items true)).Consumes items T.tokens.length := by
    refine ⟨⟨0, TokenStream.asked_ofItems items, rfl⟩, ?_⟩
    show 0 + (TokenStream.ofItems items true).feed.tokens.length = T.tokens.length
    rw [hfeed, Nat.zero_add]
  obtain ⟨result, visits, stop, s, hcourse, hends, hshows⟩ :=
    exists_course hr semantics hT hroot hfeed rfl hconsumes
  refine ⟨⟨result, visits, stop, hcourse⟩, ?_⟩
  intro result' visits' stop' hcourse'
  obtain ⟨rfl, rfl, rfl⟩ := hcourse.unique hcourse'
  have hne : ∀ message, result ≠ .error (.fault (.exhausted message)) := by
    intro message hresult
    cases hcourse with
    | whole => cases hresult
    | @raised _ _ N values action f _ _ _ acts raises =>
      cases f with
      | exhausted text => exact hactions _ action values text acts raises
      | _ => simp [Fault.raisedIn] at hresult
  have hboth := bothEnd_of_ends hr hends hne (within_of_sentence hr semantics hT hroot hfeed)
  refine ⟨hboth.imp (Nat.le_refl _) fun o ho => ⟨ho.1, hshows.same ho.2⟩, ?_⟩
  intro limit fuel o hparse
  cases Ascent.concludes hr hparse with
  | ended within ends same =>
    obtain ⟨rfl, rfl⟩ := Prod.mk.inj (ends.unique hends)
    exact ⟨visits, List.prefix_refl _, (hshows.same same).calls⟩
  | exhausted within ends =>
    exact absurd (congrArg Prod.fst (ends.unique hends)).symm (hne _)
  | @outgrown s₁ s₂ outgrows same =>
    obtain ⟨n, stack, -, hrun, -⟩ := outgrows
    have hcalls := List.forall₂_take s₂.calls.length hshows.calls
    rw [← List.prefix_iff_eq_take.mp (calls_before_end hrun hends)] at hcalls
    refine ⟨visits.take s₂.calls.length, List.take_prefix _ _, ?_⟩
    show List.Forall₂ _ s₁.calls _
    rw [Session.calls, same.events]
    exact hcalls

/-- Actions that put the values into a list, and raise something at the number 2. -/
def refuseTwo : Semantics := fun _ => some <| .ofFunction fun
  | [_, .int 2] => .error (.ordinary "ValueError" "two")
  | values => .ok (.list values)

theorem actions_in_order_listing :
    ∃ visits, visits.length = 3 ∧
      BothEnd listingTable refuseTwo (.ofStream twoItems) 3
          (fun o => o.1 = .error (.actionFailed
              ⟨1, "list", [.nonterminal "list", .terminal "item"]⟩ (.ordinary "ValueError" "two")) ∧
            Shows refuseTwo [.pair "item" (.int 1), .pair "item" (.int 2)] visits 2 o.2) ∧
        ∀ limit fuel o,
          Ascent.parse? listingTable refuseTwo limit fuel (.ofStream twoItems) = some o →
          ∃ done, done <+: visits ∧ List.Forall₂ (Visit.CalledBy refuseTwo) o.2.calls done := by
  have hrelabels := relabel_spec listing twoItemsTree twoItems.feed.tokens [] rfl
  have hfeed : twoItems.feed = ⟨(twoItemsTree.relabel twoItems.feed.tokens).tokens, .ok ⟨"$", .none, 2, 2⟩⟩ :=
    rfl
  have hactions : ∀ p action values message, refuseTwo p = some action →
      action.apply values ≠ .error (.exhausted message) := by
    intro p action values message haction happly
    cases haction
    simp only [Action.ofFunction] at happly
    split at happly <;> cases happly
  obtain ⟨-, hparse⟩ :=
    actions_in_order listing_table (hrelabels.valid twoItemsTree_valid) rfl hfeed hactions
  let item (n : Int) (i : Int) : ParseTree := .leaf ⟨"item", .int n, i, i + 1⟩
  let more : Production := ⟨1, "list", [.nonterminal "list", .terminal "item"]⟩
  let none : ParseTree := .node ⟨2, "list", []⟩ []
  have horder : (twoItemsTree.relabel twoItems.feed.tokens).visits 0 =
      [⟨⟨2, "list", []⟩, [], 0⟩, ⟨more, [none, item 1 0], 1⟩] ++
        ⟨more, [.node more [none, item 1 0], item 2 1], 2⟩ :: [] := rfl
  have hquiet : ∀ V ∈ [⟨⟨2, "list", []⟩, [], 0⟩, ⟨more, [none, item 1 0], 1⟩],
      ∃ v, eval refuseTwo (Visit.node V) = .ok v := by
    simp only [List.mem_cons, List.not_mem_nil, or_false, forall_eq_or_imp, forall_eq]
    exact ⟨⟨_, rfl⟩, _, rfl⟩
  exact ⟨_, rfl, hparse _ _ _ (.raised horder hquiet rfl rfl rfl)⟩

end StackParser

end Slr
