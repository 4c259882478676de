import Slr.Proofs.Parser.Agreement
import Slr.Proofs.Parser.Rejection

/-! # What an error says was expected

A parse that fails for want of a move may have made reductions that only the wrong token
allowed, so the state that it fails in is not the one that saw the token first. Still the
stack's forest is the beginning of the tree of some sentence. The parse of that sentence
comes to the same states and has a move there, so its next terminal is among those that
the error names, and what was consumed can go on with it. -/

namespace Slr

/-- The terminal may come behind these kinds: they go on with it in a sentence, or they are a
sentence, and it is the end of the input. -/
def Grammar.Admits (g : Grammar) (seen : List String) (k : String) : Prop :=
  (k = endName ∧ g.Sentence seen) ∨ ∃ word, g.Sentence word ∧ seen ++ [k] <+: word

namespace StackParser

open ParseTree

variable {g : Grammar} {semantics : Semantics} {t : Table} {s₀ s : Session} {n q : Nat} {v : Value}
  {below : Stack} {forest : List ParseTree} {tok : Token} {state : Nat} {expected : List String}

/-- Some terminal that is expected may come behind what a parse has consumed. -/
def Suggests (g : Grammar) (s₀ s : Session) (expected : List String) : Prop :=
  ∃ consumed, s₀.stream.feed.tokens = consumed ++ s.stream.feed.tokens ∧
    s.position = s₀.position + consumed.length ∧
    ∃ k ∈ expected, g.Admits (consumed.map Token.kind) k

/-- The state of a parse has a move on a terminal that may come behind what was consumed. -/
theorem exists_admitted (hg : g.Grounded) (ht : g.table = .ok t)
    (hreads : Reads g semantics s₀ n ((q, v) :: below) s forest) :
    ∃ k m, t.move? q k = some m ∧ g.Admits ((tokensOf forest.reverse).map Token.kind) k := by
  obtain ⟨T, hT, hroot, hops⟩ := hreads.represents.way.begins hg hreads.represents.valid
  obtain ⟨s₁, e, hfeed, htrace⟩ := exists_session hT hroot
  obtain ⟨stack, s', forest', hrun, hreads', heq⟩ := begins_reads ht hT hroot hops hfeed htrace
  -- the parse of the sentence has come to the same states
  have hroots := roots_eq_of_operations
    (fun U hU => hreads'.represents.valid U (List.mem_reverse.mp hU))
    (fun U hU => hreads.represents.valid U (List.mem_reverse.mp hU)) heq
  rw [List.map_reverse, List.map_reverse, List.reverse_inj] at hroots
  have hstates : stack.map Prod.fst = q :: below.map Prod.fst :=
    Automaton.Spells.unique hreads'.represents.way (hroots ▸ hreads.represents.way)
  obtain ⟨⟨q', v'⟩, below', rfl, hq, -⟩ := List.map_eq_cons_iff.mp hstates
  obtain rfl : q' = q := hq
  have hseen : (tokensOf forest'.reverse).map Token.kind =
      (tokensOf forest.reverse).map Token.kind := by
    rw [← shifts_operationsOf, heq, shifts_operationsOf]
  have htokens : T.tokens = tokensOf forest'.reverse ++ s'.stream.feed.tokens := by
    rw [← hreads'.tokens, hfeed]
  have hending : s'.stream.feed.ending = .ok e := by rw [hreads'.ending, hfeed]
  obtain ⟨tok, ahead⟩ : ∃ tok, s'.stream.feed.head = .ok tok := by
    cases hhead : s'.stream.feed.head with
    | ok tok => exact ⟨tok, rfl⟩
    | error f =>
      rw [Feed.ending_of_head hhead] at hending
      cases hending
  obtain ⟨m, hm⟩ :=
    Option.ne_none_iff_exists'.mp (move_ne_none ht hT hroot hfeed hrun ahead)
  refine ⟨tok.kind, m, hm, ?_⟩
  rw [← hseen]
  by_cases hend : tok.kind = endName
  · refine Or.inl ⟨hend, T, hT, hroot, ?_⟩
    rw [kinds, htokens, (TokenStream.tokens_eq_nil_of_head ahead hend).1, List.append_nil]
  · refine Or.inr ⟨T.kinds, ⟨T, hT, hroot, rfl⟩, s'.stream.feed.tail.tokens.map Token.kind, ?_⟩
    rw [kinds, htokens, TokenStream.tokens_of_head ahead hend]
    simp

theorem suggests_of_ends (hg : g.Grounded) (ht : g.table = .ok t)
    (h : Ends t semantics (.running bottom, s₀) (.error (.unexpectedToken tok state expected), s)) :
    Suggests g s₀ s expected := by
  obtain ⟨n, hn⟩ := h
  obtain ⟨m, q, v, below, s₁, forest, c, hrun, hreads, hmoved, hlast⟩ :=
    last_moved (Grammar.table_renders ht) hn
  cases hmoved with
  | shift => cases hlast
  | reduce => cases hlast
  | fault ahead => cases hlast
  | accept => cases hlast
  | failed ahead move handle operands valid fails =>
    obtain ⟨-, f, -, -, rfl | rfl⟩ := Semantics.fault_of_value fails <;> cases hlast
  | unexpected ahead no_move =>
    cases hlast
    obtain ⟨k, m, hm, hadmits⟩ := exists_admitted hg ht hreads
    refine ⟨tokensOf forest.reverse, ?_, ?_, k, Table.mem_expected_iff.mpr ⟨m, hm⟩, hadmits⟩
    · rw [looked_feed ahead, hreads.tokens]
    · show (looked t _ _ s₁).stream.position = _
      rw [looked, Session.looked_position, hreads.position]
      rfl

theorem Suggests.same {s' : Session} (h : Suggests g s₀ s expected) (hsame : s'.Same s) :
    Suggests g s₀ s' expected := by
  unfold Suggests Session.position
  rw [hsame.stream]
  exact h

/-- Where the recursive ascent parser has met a token without a move, so have the moves
from the bottom. -/
theorem ends_of_unexpected {limit fuel : Nat} (ht : g.table = .ok t)
    (h : Ascent.parse? t semantics limit fuel s₀ =
      some (.error (.unexpectedToken tok state expected), s)) :
    ∃ s', Ends t semantics (.running bottom, s₀)
      (.error (.unexpectedToken tok state expected), s') ∧ s.Same s' := by
  cases Ascent.concludes (Grammar.table_renders ht) h with
  | ended within ends same => exact ⟨_, ends, same⟩

/-- Whatever the input and the actions, where either parser of a productive grammar has met a
token without a move, some terminal that the error names may come behind the tokens that were
consumed. And that is how both parsers, without actions, end with every input whose tokens are
no sentence, if as many calls may be open as there have to be. -/
theorem unexpected_suggests (hg : g.Productive) (ht : g.table = .ok t) :
    (∀ semantics limit fuel s₀ tok state expected s,
      parse? t semantics fuel s₀ = some (.error (.unexpectedToken tok state expected), s) ∨
        Ascent.parse? t semantics limit fuel s₀ =
          some (.error (.unexpectedToken tok state expected), s) →
      Suggests g s₀ s expected) ∧
    ∀ (s₀ : Session) (tokens : List Token) (e : Token), s₀.stream.feed = ⟨tokens, .ok e⟩ →
      ¬ g.Sentence (tokens.map Token.kind) →
      ∃ (calls : Nat) (tok : Token) (state : Nat) (expected : List String),
        BothEnd t .default s₀ calls fun o =>
          o.1 = .error (.unexpectedToken tok state expected) := by
  have hr := Grammar.table_renders ht
  refine ⟨?_, ?_⟩
  · intro semantics limit fuel s₀ tok state expected s h
    rcases h with h | h
    · exact suggests_of_ends hg.grounded ht (ends_iff_run.mpr ⟨fuel, h⟩)
    · obtain ⟨s', hends, hsame⟩ := ends_of_unexpected ht h
      exact (suggests_of_ends hg.grounded ht hends).same hsame
  · intro s₀ tokens e hfeed hnot
    rcases ends_of_total hg.grounded ht (fun T _ => ⟨_, eval_default T⟩) hfeed with
      ⟨w, s, ⟨_, T, hT, hroot, rfl, -⟩, -⟩ | ⟨p, tok, state, expected, s, -, -, hends⟩
    · exact absurd ⟨T, hT, hroot, rfl⟩ hnot
    · obtain ⟨calls, hwithin⟩ := exists_within hr hends
      have hboth := bothEnd_of_ends hr hends (by simp) hwithin
      exact ⟨calls, tok, state, expected, hboth.imp (Nat.le_refl _) fun o ho => ho.1⟩

/-- A comma behind an item. -/
def itemComma : TokenStream :=
  .ofItems (TokenStream.pairItems [("item", .int 1), ("comma", .int 2)]) true

theorem unexpected_suggests_listing :
    listing.Productive ∧ listing.table = .ok listingTable ∧
      itemComma.feed.ending = .ok ⟨"$", .none, 2, 2⟩ ∧
      ¬ listing.Sentence (itemComma.feed.tokens.map Token.kind) ∧
      ∃ (calls : Nat) (tok : Token) (state : Nat) (expected : List String),
        BothEnd listingTable .default (.ofStream itemComma) calls
            (fun o => o.1 = .error (.unexpectedToken tok state expected)) ∧
          ∃ fuel s, parse? listingTable .default fuel (.ofStream itemComma) =
              some (.error (.unexpectedToken tok state expected), s) ∧
            Suggests listing (.ofStream itemComma) s expected := by
  obtain ⟨hsuggests, hrejects⟩ := unexpected_suggests listing_productive listing_table
  obtain ⟨calls, tok, state, expected, hends⟩ :=
    hrejects (.ofStream itemComma) _ ⟨"$", .none, 2, 2⟩ rfl comma_not_sentence
  obtain ⟨fuel, henough⟩ := hends.stack
  obtain ⟨⟨_, s⟩, hparse, rfl⟩ := henough fuel (Nat.le_refl _)
  exact ⟨listing_productive, listing_table, rfl, comma_not_sentence, calls, tok, state, expected,
    hends, fuel, s, hparse, hsuggests .default 0 fuel _ tok state expected s (Or.inl hparse)⟩

end StackParser

end Slr
