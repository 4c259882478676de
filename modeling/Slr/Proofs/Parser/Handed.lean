import Slr.Proofs.Parser.Actions

/-! # What actions are handed

At every moment of a parse, and however it ends, each call that it has made was for a node:
a valid one, over tokens that stand together in the input, whose children have just the
values that were handed over. -/

namespace Slr

open ParseTree

/-- A call is for the node over these children. -/
structure Hands (g : Grammar) (semantics : Semantics) (tokens : List Token)
    (call : Production × List Value) (children : List ParseTree) : Prop where
  valid : (node call.1 children).Valid g
  operands : evalAll semantics children = .ok call.2
  tokens : tokensOf children <:+: tokens

namespace ParseTree

variable {g : Grammar} {semantics : Semantics} {T : ParseTree} {ts : List ParseTree} {V : Visit}
  {start : Nat} {vs : List Value}

theorem visitsOf_valid (h : ∀ T ∈ ts, ∀ start, ∀ V ∈ T.visits start,
      V.node.Valid g ∧ tokensOf V.children <:+: T.tokens) (hV : V ∈ visitsOf start ts) :
    V.node.Valid g ∧ tokensOf V.children <:+: tokensOf ts := by
  induction ts generalizing start with
  | nil => cases hV
  | cons T ts ih =>
    rcases List.mem_append.mp hV with hV | hV
    · obtain ⟨hvalid, htokens⟩ := h T List.mem_cons_self _ V hV
      exact ⟨hvalid, htokens.trans (List.prefix_append _ _).isInfix⟩
    · obtain ⟨hvalid, htokens⟩ := ih (fun U hU => h U (List.mem_cons_of_mem _ hU)) hV
      exact ⟨hvalid, htokens.trans (List.suffix_append _ _).isInfix⟩

/-- The nodes of a tree are valid, and stand over a part of what it stands over. -/
theorem visits_valid (hT : T.Valid g) (hV : V ∈ T.visits start) :
    V.node.Valid g ∧ tokensOf V.children <:+: T.tokens := by
  induction T using rec_children generalizing start V with
  | leaf token => cases hV
  | node p children ih =>
    obtain ⟨-, -, hvalid⟩ := hT.of_node
    rcases List.mem_append.mp hV with hV | hV
    · exact visitsOf_valid (fun U hU start V hV => ih U hU (hvalid U hU) hV) hV
    · obtain rfl := List.mem_singleton.mp hV
      exact ⟨hT, List.infix_refl _⟩

/-- In a forest each tree has the value that stands in its place. -/
theorem eval_of_getElem? (h : evalAll semantics ts = .ok vs) {j : Nat} (hT : ts[j]? = some T) {v : Value}
    (hv : vs[j]? = some v) : eval semantics T = .ok v := by
  induction ts generalizing vs j with
  | nil => cases hT
  | cons U ts ih =>
    obtain ⟨w, ws, hw, hws, rfl⟩ := evalAll_cons_inv h
    cases j with
    | zero =>
      obtain rfl := Option.some.inj hT
      obtain rfl := Option.some.inj hv
      exact hw
    | succ j => exact ih hws hT hv

end ParseTree

namespace StackParser

variable {g : Grammar} {semantics : Semantics} {follow : Lookahead} {t : Table} {stack : Stack}
  {s s₀ : Session} {n : Nat} {call : Production × List Value}

theorem exists_visit {calls : List (Production × List Value)} {visits : List Visit}
    (h : List.Forall₂ (Visit.CalledBy semantics) calls visits) (hcall : call ∈ calls) :
    ∃ V ∈ visits, V.CalledBy semantics call := by
  induction h with
  | nil => cases hcall
  | cons hV _ ih =>
    rcases List.mem_cons.mp hcall with rfl | hcall
    · exact ⟨_, List.mem_cons_self, hV⟩
    · obtain ⟨V, hmem, hV⟩ := ih hcall
      exact ⟨V, List.mem_cons_of_mem _ hmem, hV⟩

theorem hands_of_running (hr : t.Renders (Automaton.build g) follow) (hcalls₀ : s₀.calls = [])
    (h : (next t semantics)^[n] (.running bottom, s₀) = (.running stack, s)) (hcall : call ∈ s.calls) :
    ∃ children, Hands g semantics s₀.stream.feed.tokens call children := by
  obtain ⟨forest, calls, hreads, hcalls, hvisits⟩ := calls_iterate hr h
  rw [hcalls, hcalls₀, List.nil_append] at hcall
  obtain ⟨V, hV, hproduction, hoperands⟩ := exists_visit hvisits hcall
  obtain ⟨hvalid, htokens⟩ := visitsOf_valid
    (fun T hT start V hV => visits_valid (hreads.represents.valid T (List.mem_reverse.mp hT)) hV) hV
  refine ⟨V.children, hproduction ▸ hvalid, hoperands, htokens.trans ?_⟩
  rw [hreads.tokens]
  exact (List.prefix_append _ _).isInfix

/-- Every call is for a node, at every moment of a parse. -/
theorem hands_of_iterate (hr : t.Renders (Automaton.build g) follow) (hcalls₀ : s₀.calls = [])
    (hcall : call ∈ ((next t semantics)^[n] (.running bottom, s₀)).2.calls) :
    ∃ children, Hands g semantics s₀.stream.feed.tokens call children := by
  rcases hc : (next t semantics)^[n] (.running bottom, s₀) with ⟨status, s⟩
  rw [hc] at hcall
  cases hended : outcome? (status, s) with
  | none =>
    cases status with
    | running stack => exact hands_of_running hr hcalls₀ hc hcall
    | accepted | failed => cases hended
  | some o =>
    obtain ⟨m, q, v, below, s', forest, c, hrun, hreads, hmoved, hlast⟩ :=
      last_moved hr ((congrArg outcome? hc).trans hended)
    have hbefore (h : call ∈ s'.calls) := hands_of_running hr hcalls₀ hrun h
    have hsession : s = c.2 :=
      (session_of_outcome? hended).trans (session_of_outcome? hlast).symm
    rw [hsession] at hcall
    cases hmoved with
    | shift | reduce => cases hlast
    | fault | unexpected | accept => exact hbefore (by simpa [looked] using hcall)
    | @failed tok p children rest values e ahead move handle operands valid fails =>
      rw [Session.calls_called, looked, Session.calls_looked] at hcall
      rcases List.mem_append.mp hcall with hcall | hcall
      · exact hbefore hcall
      · obtain rfl := List.mem_singleton.mp hcall
        refine ⟨children, valid, operands, ?_⟩
        subst handle
        rw [hreads.tokens, List.reverse_append, List.reverse_reverse, tokensOf_append]
        exact ⟨_, _, rfl⟩

end StackParser

namespace Ascent

open StackParser

variable {g : Grammar} {semantics : Semantics} {follow : Lookahead} {t : Table} {s s₀ : Session}
  {limit fuel : Nat} {result : Except ParseError Value} {call : Production × List Value}

/-- Every call is for a node, in a parse by recursive ascent. -/
theorem hands_of_parse (hr : t.Renders (Automaton.build g) follow) (hcalls₀ : s₀.calls = [])
    (h : parse? t semantics limit fuel s₀ = some (result, s)) (hcall : call ∈ s.calls) :
    ∃ children, Hands g semantics s₀.stream.feed.tokens call children := by
  obtain ⟨n, hsame⟩ := (concludes hr h).exists_moment
  have hcalls : s.calls = ((next t semantics)^[n] (.running bottom, s₀)).2.calls := by
    rw [Session.calls, hsame.events, Session.calls]
  exact hands_of_iterate hr hcalls₀ (hcalls ▸ hcall)

end Ascent

end Slr
