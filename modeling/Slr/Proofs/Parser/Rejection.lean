import Slr.Proofs.Parser.Verdicts
import Slr.Proofs.Stream.Pairs

/-! # Where a parse of an invalid input fails

A parse without actions of a productive grammar fails at the first token with
which the input is no beginning of a sentence any more. For a stream of pairs the
token's place is its index, and nothing behind the token has been pulled. -/

namespace Slr.StackParser

open ParseTree TokenStream

variable {g : Grammar} {t : Table} {pairs : List (String × Value)} {watched : Bool}
  {stack : Stack} {s : Session} {tok : Token} {n p : Nat}

/-- What is to be found after an input was rejected at position `p`. -/
structure RejectedAt (g : Grammar) (pairs : List (String × Value)) (p : Nat) (tok : Token)
    (expected : List String) (s : Session) : Prop where
  position : s.position = p
  begins : ∃ word, g.Sentence word ∧ (pairs.map Prod.fst).take p <+: word
  diverges : (p = pairs.length ∧ tok.kind = endName) ∨
    (p < pairs.length ∧ ∀ word, g.Sentence word → ¬ (pairs.map Prod.fst).take (p + 1) <+: word)
  token : (pairTokens pairs)[p]? = some tok
  start : tok.start = p
  stays : s.stream.peek.result = .ok tok
  unexpected : tok.kind ∉ expected
  /-- Nothing behind the token was pulled. -/
  pulls : ∀ i, .pulled i ∈ s.events → i ≤ p
  source : ∀ src, s.stream.source = some src → src.items = (pairItems pairs).drop (p + 1)

/-! ## The stream of a parse -/

/-- A session whose stream is `c` tokens along, and has pulled no more than it says. -/
structure Keeps (pairs : List (String × Value)) (watched : Bool) (c : Nat) (s : Session) : Prop where
  along : Along pairs watched c s.stream
  pulls : ∀ i, .pulled i ∈ s.events → i < s.stream.pulled

theorem Keeps.looked {c q : Nat} (h : Keeps pairs watched c s)
    (hpairs : ∀ p ∈ pairs, p.1 ≠ endName) :
    Keeps pairs watched c (StackParser.looked t stack q s) := by
  obtain ⟨halong, hmore, hpulls⟩ := h.along.peek hpairs
  unfold StackParser.looked
  refine ⟨by rwa [Session.looked_stream], ?_⟩
  intro i hi
  rw [Session.looked_stream]
  rw [Session.looked_events, Array.appendList_eq_append, ← Array.mem_toList_iff,
    Array.toList_appendList, List.mem_append, Array.mem_toList_iff] at hi
  rcases hi with hi | hi
  · exact Nat.lt_of_lt_of_le (h.pulls i hi) hmore
  · exact hpulls i hi

theorem keeps_iterate (ht : g.table = .ok t) (hpairs : ∀ p ∈ pairs, p.1 ≠ endName)
    (h : (next t .default)^[n] (.running bottom, .ofStream (.ofItems (pairItems pairs) watched)) =
      (.running stack, s)) : ∃ c, Keeps pairs watched c s := by
  refine session_iterate (I := fun s => ∃ c, Keeps pairs watched c s) (Grammar.table_renders ht)
    ?_ ?_ ?_ ⟨0, along_ofItems, ?_⟩ h
  · intro stack q s tok hs _
    obtain ⟨c, hs⟩ := hs
    exact ⟨c, hs.looked hpairs⟩
  · intro s tok hs ahead hend
    obtain ⟨c, hs⟩ := hs
    exact ⟨c + 1, hs.along.pass ahead hend, hs.pulls⟩
  · intro s p values hs
    obtain ⟨c, hs⟩ := hs
    refine ⟨c, hs.along, fun i hi => hs.pulls i ?_⟩
    simpa [Session.called] using hi
  · intro i hi
    simp [Session.ofStream] at hi

/-! ## The token that has no move -/

theorem kinds_mapIdx (pairs : List (String × Value)) :
    (pairs.mapIdx Token.ofPair).map Token.kind = pairs.map Prod.fst := by
  apply List.ext_getElem?
  intro i
  cases h : pairs[i]? <;> simp [List.getElem?_mapIdx, h, Token.ofPair]

/-- A parse of pairs that looks at a token without a move rejects there. -/
theorem rejectedAt_of_unexpected (hg : g.Productive) (ht : g.table = .ok t)
    (hpairs : ∀ p ∈ pairs, p.1 ≠ endName) {q : Nat} {v : Value} {below : Stack}
    (hrun : (next t .default)^[n]
      (.running bottom, .ofStream (.ofItems (pairItems pairs) watched)) =
        (.running ((q, v) :: below), s))
    (ahead : s.stream.feed.head = .ok tok) (hm : t.move? q tok.kind = none) :
    ∃ p, RejectedAt g pairs p tok (t.expected q) (looked t ((q, v) :: below) q s) := by
  obtain ⟨c, hkeeps⟩ := keeps_iterate ht hpairs hrun
  have hlooked : Keeps pairs watched c (looked t ((q, v) :: below) q s) := hkeeps.looked hpairs
  have hahead : (looked t ((q, v) :: below) q s).stream.ahead = some tok := ahead_looked ahead
  have hinput : (Session.ofStream (.ofItems (pairItems pairs) watched)).stream.feed = _ :=
    feed_ofItems hpairs
  obtain ⟨p, hstops, hp⟩ := stopsAt_of_unexpected hg.grounded ht hinput hrun ahead hm
  -- the stream is as far along as tokens were consumed
  obtain rfl : c = p := by
    rw [hkeeps.along.position_eq] at hp
    simpa [Session.ofStream, ofItems] using hp
  have htoken : (pairTokens pairs)[c]? = some tok := hstops.token
  obtain ⟨word, hword, hpre⟩ := hstops.begins
  refine ⟨c, hlooked.along.position_eq, ⟨word, hword, by rwa [kinds_mapIdx] at hpre⟩, ?_, htoken,
    hlooked.along.start_eq hahead, ?_, ?_, ?_, fun src hsrc => hlooked.along.source_eq hahead hsrc⟩
  · rcases Nat.eq_or_lt_of_le hkeeps.along.le_length with rfl | hlt
    · refine Or.inl ⟨rfl, ?_⟩
      have hend : ⟨endName, .none, pairs.length, pairs.length⟩ = tok := by
        simpa [pairTokens] using htoken
      rw [← hend]
    · refine Or.inr ⟨hlt, ?_⟩
      intro word hword hpre
      refine hstops.diverges word hword ?_
      rw [kinds_mapIdx, List.take_append_of_le_length (by simpa [Nat.succ_le_iff] using hlt)]
      exact hpre.trans (List.prefix_append _ _)
  · simp [TokenStream.peek, hahead]
  · rw [Table.mem_expected_iff, hm]
    simp
  · intro i hi
    have hpulled := hlooked.along.pulled_le
    have hi := hlooked.pulls i hi
    omega

/-- An input that is no sentence is rejected where it stops being the beginning of one. -/
theorem parse_rejects (hg : g.Productive) (ht : g.table = .ok t)
    (hpairs : ∀ p ∈ pairs, p.1 ≠ endName) (hnot : ¬ g.Sentence (pairs.map Prod.fst)) :
    ∃ (enough : Nat) (p : Nat) (tok : Token) (state : Nat) (expected : List String) (s : Session),
      (∀ fuel : Nat, enough ≤ fuel →
        parse? t .default fuel (.ofStream (.ofItems (pairItems pairs) watched)) =
          some (.error (.unexpectedToken tok state expected), s)) ∧
      RejectedAt g pairs p tok expected s := by
  have hr := Grammar.table_renders ht
  obtain ⟨o, m, hm⟩ := exists_ends hg ht (.ofStream (.ofItems (pairItems pairs) watched))
  obtain ⟨n, q, v, below, s, forest, c, hrun, ⟨-, htokens, hending, -, -⟩, hmoved, hlast⟩ :=
    last_moved hr hm
  have hinput : (Session.ofStream (.ofItems (pairItems pairs) watched)).stream.feed = _ :=
    feed_ofItems hpairs
  simp only [hinput] at htokens hending
  cases hmoved with
  | shift => cases hlast
  | reduce => cases hlast
  | failed _ _ _ _ _ fails => cases fails
  | fault ahead =>
    rw [Feed.head, hending] at ahead
    split at ahead <;> cases ahead
  | accept ahead _ ends one valid root =>
    subst one
    refine absurd ⟨_, valid, root, ?_⟩ hnot
    rw [← kinds_mapIdx, htokens, (tokens_eq_nil_of_head ahead ends).1]
    simp [kinds]
  | @unexpected tok ahead no_move =>
    obtain ⟨p, hrejected⟩ := rejectedAt_of_unexpected hg ht hpairs hrun ahead no_move
    refine ⟨m, p, tok, q, t.expected q, _, ?_, hrejected⟩
    intro fuel hfuel
    rw [parse?, run_eq_iterate, outcome?_mono hfuel hm, ← hlast]
    rfl

theorem listing_productive : listing.Productive := by
  have hlist : (ParseTree.node ⟨2, "list", []⟩ []).Valid listing :=
    .node (by decide) rfl (by simp)
  intro n hn
  obtain ⟨p, hp, rfl⟩ := Grammar.mem_nonterminals.mp hn
  have hcases : p = .goal "list" ∨ p.lhs = "list" := by
    simp only [listing, List.mem_cons, List.not_mem_nil, or_false] at hp
    rcases hp with rfl | rfl | rfl
    · exact Or.inl rfl
    · exact Or.inr rfl
    · exact Or.inr rfl
  rcases hcases with rfl | hlhs
  · exact ⟨.node (.goal "list") [.node ⟨2, "list", []⟩ [], .leaf ⟨"$", .none, 0, 0⟩],
      .node (by decide) rfl (by simp [hlist, Valid.leaf]), rfl⟩
  · exact ⟨_, hlist, by rw [hlhs]; rfl⟩

theorem comma_not_sentence : ¬ listing.Sentence ["item", "comma"] := by
  intro h
  obtain ⟨T, hT, hroot, hkinds⟩ := h
  have hcomma := hT.kind_mem_terminals (k := "comma")
    (hroot ▸ Grammar.nonterminal_mem_alphabet.mpr listing.start_mem_nonterminals)
    (by rw [hkinds]; decide)
  obtain ⟨p, hp, hmem⟩ := Grammar.mem_terminals.mp hcomma
  revert p
  decide

theorem parse_rejects_listing :
    ∃ (enough : Nat) (p : Nat) (tok : Token) (state : Nat) (expected : List String) (s : Session),
      (∀ fuel : Nat, enough ≤ fuel → parse? listingTable .default fuel
        (.ofStream (.ofItems (pairItems [("item", .int 1), ("comma", .int 2)]) true)) =
          some (.error (.unexpectedToken tok state expected), s)) ∧
      RejectedAt listing [("item", .int 1), ("comma", .int 2)] p tok expected s :=
  parse_rejects listing_productive listing_table (by decide) comma_not_sentence

end Slr.StackParser
