import Slr.Proofs.Derivation.Yields
import Slr.Proofs.Parser.Halting

/-! # Parses with actions that do not fail

If the actions give every tree a value, a parse accepts what the grammar yields, with
the value that it yields, and everything else it rejects where the input stops being
the beginning of a sentence. What was consumed before is the beginning of a sentence
since the stack's forest is; the token itself is not, since the parse of a sentence that
goes on with it would be in the same states up to there, and has a move. That place is a matter of the sentences alone: whatever
two grammars and their tables look like, if they have the same sentences they reject
an input at the same token. -/

namespace Slr

open ParseTree

/-- At the token at index `p`, before which the tokens begin a sentence, they stop doing
so. The token `e` stands for the end of the input. -/
structure Grammar.StopsAt (g : Grammar) (ts : List Token) (e : Token) (p : Nat) (tok : Token) :
    Prop where
  token : (ts ++ [e])[p]? = some tok
  begins : ∃ word, g.Sentence word ∧ (ts.map Token.kind).take p <+: word
  diverges : ∀ word, g.Sentence word →
    ¬ (ts.map Token.kind ++ [endName]).take (p + 1) <+: word ++ [endName]

namespace Grammar.StopsAt

variable {g g' : Grammar} {ts : List Token} {e tok tok' : Token} {p p' : Nat}

theorem le_length (h : g.StopsAt ts e p tok) : p ≤ ts.length := by
  obtain ⟨hp, -⟩ := List.getElem?_eq_some_iff.mp h.token
  rw [List.length_append, List.length_singleton] at hp
  omega

theorem not_lt (h : g.StopsAt ts e p tok) (h' : g'.StopsAt ts e p' tok')
    (hsub : ∀ word, g'.Sentence word → g.Sentence word) : ¬ p < p' := by
  intro hlt
  obtain ⟨word, hword, hpre⟩ := h'.begins
  have hlength : p + 1 ≤ (ts.map Token.kind).length := by
    rw [List.length_map]
    exact Nat.le_trans hlt h'.le_length
  refine h.diverges word (hsub word hword) ?_
  rw [List.take_append_of_le_length hlength]
  exact ((List.take_prefix_take_left hlt).trans hpre).trans (List.prefix_append _ _)

/-- Grammars with the same sentences stop at the same token. -/
theorem unique (h : g.StopsAt ts e p tok) (h' : g'.StopsAt ts e p' tok')
    (hsame : ∀ word, g.Sentence word ↔ g'.Sentence word) : p = p' ∧ tok = tok' := by
  have hle := h.not_lt h' fun word => (hsame word).mpr
  have hge := h'.not_lt h fun word => (hsame word).mp
  obtain rfl : p = p' := by omega
  exact ⟨rfl, Option.some.inj (h.token.symm.trans h'.token)⟩

end Grammar.StopsAt

namespace StackParser

variable {g : Grammar} {semantics : Semantics} {t : Table} {s₀ s : Session} {ts : List Token}
  {e tok : Token} {n q : Nat} {v : Value} {below : Stack}

/-- A parse of a sentence has a move on every token that it looks at: without one it would
fail, and it is known to accept. -/
theorem move_ne_none (ht : g.table = .ok t) {T : ParseTree} (hT : T.Valid g)
    (hroot : T.root = .nonterminal g.start) (hfeed : s₀.stream.feed = ⟨T.tokens, .ok e⟩)
    (hrun : (next t .default)^[n] (.running bottom, s₀) = (.running ((q, v) :: below), s))
    (ahead : s.stream.feed.head = .ok tok) : t.move? q tok.kind ≠ none := by
  intro hm
  obtain ⟨s₂, haccepts, -⟩ :=
    sentence_ends (Grammar.table_renders ht) hT hroot (eval_default T) hfeed
  have hfails : Ends t .default (.running bottom, s₀) _ :=
    ⟨n + 1, by rw [Function.iterate_succ_apply', hrun, next_unexpected ahead hm]; rfl⟩
  have hboth := hfails.unique haccepts
  simp at hboth

/-- No sentence has in common with the input what is more than was consumed. -/
theorem not_prefix_of_unexpected (ht : g.table = .ok t)
    (hrun : (next t semantics)^[n] (.running bottom, s₀) = (.running ((q, v) :: below), s))
    (ahead : s.stream.feed.head = .ok tok) (hm : t.move? q tok.kind = none) {u : List String}
    (hu : u <+: s₀.stream.feed.word)
    (hmore : s₀.stream.feed.word.length < s.stream.feed.word.length + u.length)
    {word : List String} (hword : g.Sentence word) : ¬ u <+: word ++ [endName] := by
  intro hpre
  have hr := Grammar.table_renders ht
  obtain ⟨T, hT, hroot, rfl⟩ := hword
  obtain ⟨s₁, e, hfeed, -⟩ := exists_session hT hroot
  have halike : Alike u bottom s₀ bottom s₁ := ⟨rfl, hu, by rwa [hfeed], e, by rw [hfeed]⟩
  obtain ⟨stack₁, s₁', u', hrun₁, halike', hsame⟩ := alike_iterate hr halike hrun hmore
  cases u' with
  | nil => simp at hsame; omega
  | cons k u' =>
    obtain ⟨rfl, tok₁, ahead₁, hkind⟩ := halike'.head ahead
    cases stack₁ with
    | nil => cases halike'.states
    | cons e₁ below₁ =>
      obtain ⟨q₁, v₁⟩ := e₁
      obtain ⟨rfl, -⟩ : q = q₁ ∧ below.map Prod.fst = below₁.map Prod.fst :=
        List.cons.inj halike'.states
      exact move_ne_none ht hT hroot hfeed hrun₁ ahead₁ (hkind ▸ hm)

/-- What a parse that has no move has consumed begins a sentence, and no more of the input does. -/
theorem stopsAt_of_unexpected (hg : g.Grounded) (ht : g.table = .ok t)
    (hfeed : s₀.stream.feed = ⟨ts, .ok e⟩)
    (hrun : (next t semantics)^[n] (.running bottom, s₀) = (.running ((q, v) :: below), s))
    (ahead : s.stream.feed.head = .ok tok) (hm : t.move? q tok.kind = none) :
    ∃ p, g.StopsAt ts e p tok ∧ s.stream.position = s₀.stream.position + p := by
  obtain ⟨forest, hreads⟩ := reads_iterate (Grammar.table_renders ht) hrun
  have htokens : ts = tokensOf forest.reverse ++ s.stream.feed.tokens := by
    rw [← hreads.tokens, hfeed]
  have hending : s.stream.feed.ending = .ok e := by rw [hreads.ending, hfeed]
  refine ⟨(tokensOf forest.reverse).length, ⟨?_, ?_, ?_⟩, hreads.position⟩
  · rw [Feed.head, hending] at ahead
    rw [htokens, List.append_assoc, List.getElem?_append_right (Nat.le_refl _), Nat.sub_self]
    cases hrest : s.stream.feed.tokens with
    | nil => simpa [hrest] using ahead
    | cons first rest => simpa [hrest] using ahead
  · obtain ⟨word, hword, hpre⟩ :=
      (hreads.represents.way.begins hg hreads.represents.valid).exists_sentence
    refine ⟨word, hword, ?_⟩
    rw [htokens, List.map_append, List.take_left' (by simp), ← shifts_operationsOf]
    exact hpre
  · intro word hword
    refine not_prefix_of_unexpected ht hrun ahead hm ?_ ?_ hword
    · rw [hfeed]
      exact List.take_prefix _ _
    · simp only [hfeed, Feed.word, htokens, List.length_append, List.length_map, List.length_take,
        List.length_singleton]
      omega

/-- The two ends of a parse in which no action fails: the value that the input yields, or
the token where it stops being the beginning of a sentence. -/
theorem ends_of_total (hg : g.Grounded) (ht : g.table = .ok t)
    (htotal : ∀ T : ParseTree, T.Valid g → ∃ v, eval semantics T = .ok v)
    (hfeed : s₀.stream.feed = ⟨ts, .ok e⟩) :
    (∃ v s, g.Yields semantics g.start v ts ∧
        Ends t semantics (.running bottom, s₀) (.ok v, s)) ∨
      ∃ p tok state expected s, g.StopsAt ts e p tok ∧ s.position = s₀.position + p ∧
        Ends t semantics (.running bottom, s₀)
          (.error (.unexpectedToken tok state expected), s) := by
  obtain ⟨o, n, hn⟩ := ends_of_grounded hg ht semantics s₀
  obtain ⟨m, q, v, below, s, forest, c, hrun, hreads, hmoved, hlast⟩ :=
    last_moved (Grammar.table_renders ht) hn
  have htokens : ts = tokensOf forest.reverse ++ s.stream.feed.tokens := by
    rw [← hreads.tokens, hfeed]
  cases hmoved with
  | shift => cases hlast
  | reduce => cases hlast
  | fault ahead =>
    have hending := Feed.ending_of_head ahead
    rw [hreads.ending, hfeed] at hending
    cases hending
  | failed ahead move handle operands valid fails =>
    obtain ⟨w, hw⟩ := htotal _ valid
    rw [eval_node operands, fails] at hw
    cases hw
  | @accept _ T w ahead _ ends one valid root value =>
    refine Or.inl ⟨w, _, ⟨_, T, valid, root, ?_, value, Nat.le_refl _⟩, n, hn.trans hlast.symm⟩
    rw [htokens, one, (TokenStream.tokens_eq_nil_of_head ahead ends).1]
    simp
  | @unexpected tok ahead no_move =>
    obtain ⟨p, hstops, hp⟩ := stopsAt_of_unexpected hg ht hfeed hrun ahead no_move
    refine Or.inr ⟨p, tok, q, t.expected q, _, hstops, ?_, n, hn.trans hlast.symm⟩
    show (looked t ((q, v) :: below) q s).stream.position = _
    rw [looked, Session.looked_position, hp]
    rfl

end StackParser

end Slr
