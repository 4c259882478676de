import Slr.Proofs.Parser.Soundness

/-! # Every derivation tree is read

With the grammar's own lookahead sets a parser that expects the root of a tree
and has the tree's tokens ahead makes the operations of the tree, and has then
one value more on its stack. For a node the parser first reads the children,
along the items of the node's production; the token behind them is in FOLLOW of
the left hand side, so that the table reduces there. -/

namespace Slr.StackParser

open ParseTree

variable {g : Grammar} {semantics : Semantics} {t : Table} {stack top : Stack} {s s₁ s₂ : Session}
  {it : Item} {T : ParseTree} {xs : List Symbol} {tok e : Token} {w : Value}

/-- Moves that make these operations lead from a stack and a session to others. -/
structure Leads (t : Table) (semantics : Semantics) (stack : Stack) (s : Session)
    (ops : List Operation) (stack' : Stack) (s' : Session) : Prop where
  moves : (next t semantics)^[ops.length] (.running stack, s) = (.running stack', s')
  trace : s'.trace = s.trace ++ ops

theorem Leads.refl : Leads t semantics stack s [] stack s := ⟨rfl, by simp⟩

theorem Leads.trans {stack₁ stack₂ : Stack} {ops₁ ops₂ : List Operation}
    (h₁ : Leads t semantics stack s ops₁ stack₁ s₁)
    (h₂ : Leads t semantics stack₁ s₁ ops₂ stack₂ s₂) :
    Leads t semantics stack s (ops₁ ++ ops₂) stack₂ s₂ where
  moves := by
    rw [List.length_append, Nat.add_comm, Function.iterate_add_apply, h₁.moves, h₂.moves]
  trace := by rw [h₂.trace, h₁.trace, List.append_assoc]

/-! ## One operation -/

theorem leads_shift (hr : t.Renders (Automaton.build g) g.follow)
    (way : (Automaton.build g).Spells (stack.map Prod.fst) xs) (hvalid : ValidItem g xs it)
    (hnext : it.next = some (.terminal tok.kind)) (hend : tok.kind ≠ endName)
    (ahead : s.stream.feed.head = .ok tok) :
    ∃ r s', Leads t semantics stack s [.shift tok.kind] ((r, tok.value) :: stack) s' ∧
      s'.stream.feed = s.stream.feed.tail ∧
      (Automaton.build g).Spells (r :: stack.map Prod.fst) (.terminal tok.kind :: xs) := by
  have hc := Automaton.build_canonical g
  obtain ⟨q, v, below, rfl⟩ := exists_top way
  have hit := (hc.mem_items_iff way).mpr hvalid
  obtain ⟨r, edge⟩ := hc.exists_edge hit hnext (by simpa using hend)
  have hm := hr.shift_of hit hnext hend edge
  refine ⟨r, _, ⟨next_shift ahead hm, ?_⟩, passed_feed ahead, way.push edge⟩
  rw [Session.trace_pass, looked_trace ahead hm]
  rfl

theorem leads_reduce (hr : t.Renders (Automaton.build g) g.follow)
    (way : (Automaton.build g).Spells ((top ++ stack).map Prod.fst) (it.production.rhs.reverse ++ xs))
    (hvalid : ValidItem g (it.production.rhs.reverse ++ xs) it) (hnext : it.next = none)
    (htop : top.length = it.production.size) (ahead : s.stream.feed.head = .ok tok)
    (hfollow : tok.kind ∈ g.followOf (FirstSets.ofGrammar g) it.production.lhs)
    (hw : semantics.value it.production (top.map Prod.snd).reverse = .ok w) :
    ∃ r s', Leads t semantics (top ++ stack) s [.reduce it.production] ((r, w) :: stack) s' ∧
      s'.stream.feed = s.stream.feed ∧
      (Automaton.build g).Spells (r :: stack.map Prod.fst)
        (.nonterminal it.production.lhs :: xs) := by
  have hc := Automaton.build_canonical g
  have hgoal : it.production.lhs ≠ goalName := fun h =>
    hvalid.production_ne_goal hnext (Grammar.eq_goal_of_lhs hvalid.production_mem h)
  have hlookup := Grammar.follow_lookup
    (Grammar.mem_nonterminals.mpr ⟨_, hvalid.production_mem, rfl⟩) hgoal
  obtain ⟨q', v', below', hall⟩ := exists_top way
  rw [hall] at way ⊢
  have hit := (hc.mem_items_iff way).mpr hvalid
  obtain ⟨ys, q, qs, r, hroots, hstates, hbelow, edge⟩ := hc.exists_goto way hit hnext
  obtain rfl := List.append_cancel_left hroots
  have hdrop : ((q', v') :: below').drop it.production.size = stack := by
    rw [← hall, ← htop, List.drop_left]
  have hvalues : topValues it.production.size ((q', v') :: below') = (top.map Prod.snd).reverse := by
    rw [topValues, ← hall, ← htop, List.take_left, List.map_reverse]
  have hstack : stack.map Prod.fst = q :: qs := by
    rw [← hdrop, List.map_drop]
    exact hstates
  obtain ⟨⟨_, v⟩, below, rfl, rfl, rfl⟩ := List.map_eq_cons_iff.mp hstack
  have hm := hr.reduce_of hit hnext hlookup hfollow
  have hgoto := (hr.goto _ _).trans edge
  have hstep : next t semantics (.running ((q', v') :: below'), s) = _ := next_reduce ahead hm
  simp only [hvalues, hdrop, hw, push, hgoto] at hstep
  refine ⟨r, _, ⟨hstep, ?_⟩, looked_feed ahead, hbelow.push edge⟩
  rw [Session.trace_called, looked_trace ahead hm]
  rfl

/-! ## One tree -/

/-- From a stack with an item that expects its root, and with its tokens ahead, a
tree is read: a parser makes its operations and has its value on top. -/
def Readable (g : Grammar) (t : Table) (semantics : Semantics) (T : ParseTree) : Prop :=
  ∀ {stack : Stack} {s : Session} {xs : List Symbol} {it : Item} {w : Value} {rest : List Token}
    {e : Token}, (Automaton.build g).Spells (stack.map Prod.fst) xs → ValidItem g xs it →
    it.next = some T.root → eval semantics T = .ok w →
    s.stream.feed = ⟨T.tokens ++ rest, .ok e⟩ →
    (∀ n, T.root = .nonterminal n → (rest.headD e).kind ∈ g.followOf (FirstSets.ofGrammar g) n) →
    ∃ r s', Leads t semantics stack s T.operations ((r, w) :: stack) s' ∧
      s'.stream.feed = ⟨rest, .ok e⟩ ∧
      (Automaton.build g).Spells (r :: stack.map Prod.fst) (T.root :: xs)

theorem head_feed {rest : List Token} (h : s.stream.feed = ⟨rest, .ok e⟩) :
    s.stream.feed.head = .ok (rest.headD e) := by
  rw [h]
  cases rest <;> rfl

/-- An item that expects the roots of trees reads them one by one to its end. -/
theorem forest_reads {us : List ParseTree} (h : ∀ U ∈ us, Readable g t semantics U)
    (hus : ∀ U ∈ us, U.Valid g) {ws : List Value} {rest : List Token}
    (way : (Automaton.build g).Spells (stack.map Prod.fst) xs) (hvalid : ValidItem g xs it)
    (hroots : it.production.rhs.drop it.dot = us.map root) (hws : evalAll semantics us = .ok ws)
    (hfeed : s.stream.feed = ⟨tokensOf us ++ rest, .ok e⟩)
    (hrest : (rest.headD e).kind ∈ g.followOf (FirstSets.ofGrammar g) it.production.lhs) :
    ∃ top s' it', Leads t semantics stack s (operationsOf us) (top ++ stack) s' ∧
      top.map Prod.snd = ws.reverse ∧ s'.stream.feed = ⟨rest, .ok e⟩ ∧
      (Automaton.build g).Spells ((top ++ stack).map Prod.fst) ((us.map root).reverse ++ xs) ∧
      ValidItem g ((us.map root).reverse ++ xs) it' ∧ it'.production = it.production ∧
      it'.next = none := by
  induction us generalizing stack s xs it ws with
  | nil =>
    cases hws
    refine ⟨[], s, it, .refl, rfl, by simpa [tokensOf] using hfeed, way, hvalid, rfl, ?_⟩
    exact Item.next_eq_none_iff.mpr (Nat.le_antisymm it.dot_le (List.drop_eq_nil_iff.mp hroots))
  | cons U us ih =>
    obtain ⟨w, ws₂, hw, hws₂, rfl⟩ := evalAll_cons_inv hws
    have hnext : it.next = some U.root := by
      rw [Item.next, ← List.head?_drop, hroots]
      rfl
    obtain ⟨it₁, hadv⟩ := Item.exists_advance hnext
    obtain ⟨hprod, hdot⟩ := Item.advance?_eq_some_iff.mp hadv
    have htail : it.production.rhs.drop (it.dot + 1) = us.map root := by
      rw [Item.drop_eq_of_next hnext] at hroots
      exact (List.cons.inj hroots).2
    have hend : U.root ≠ .terminal endName := by
      cases U with
      | leaf token =>
        have hkind : token.kind ≠ endName :=
          TokenStream.kind_ne_end_of_mem_feed (s := s.stream) (by simp [hfeed, tokensOf, tokens])
        simpa [root] using hkind
      | node p children => simp [root]
    rw [tokensOf, List.append_assoc] at hfeed
    have hlook : ∀ n, U.root = .nonterminal n →
        ((tokensOf us ++ rest).headD e).kind ∈ g.followOf (FirstSets.ofGrammar g) n := by
      intro n hn
      have hrhs : it.production.rhs = it.production.rhs.take it.dot ++ .nonterminal n :: us.map root := by
        rw [← hn, ← List.map_cons, ← hroots, List.take_append_drop]
      exact Grammar.mem_followOf_behind hvalid.production_mem hrhs (fun V hV => hus V (by simp [hV]))
        hrest
    obtain ⟨r, s₁, hleads, hfeed₁, way₁⟩ := h U (by simp) way hvalid hnext hw hfeed hlook
    have way₁ : (Automaton.build g).Spells (((r, w) :: stack).map Prod.fst) (U.root :: xs) := way₁
    obtain ⟨top, s₂, it₂, hleads₂, htop, hfeed₂, way₂, hvalid₂, hprod₂, hnone⟩ :=
      ih (fun V hV => h V (by simp [hV])) (fun V hV => hus V (by simp [hV])) way₁
        (hvalid.advance hnext hend hadv) (by rw [hprod, hdot, htail]) hws₂ hfeed₁
        (by rw [hprod]; exact hrest)
    refine ⟨top ++ [(r, w)], s₂, it₂, ?_, ?_, hfeed₂, ?_, ?_, hprod₂.trans hprod, hnone⟩
    · simpa [operationsOf] using hleads.trans hleads₂
    · simp [htop]
    · simpa using way₂
    · simpa using hvalid₂

theorem tree_reads (hr : t.Renders (Automaton.build g) g.follow) (hT : T.Valid g) :
    Readable g t semantics T := by
  induction T using rec_children with
  | leaf token =>
    intro stack s xs it w rest e way hvalid hnext hw hfeed _
    cases hw
    have ahead : s.stream.feed.head = .ok token := by rw [hfeed]; rfl
    have hend : token.kind ≠ endName :=
      TokenStream.kind_ne_end_of_mem_feed (s := s.stream) (by simp [hfeed, ParseTree.tokens])
    obtain ⟨r, s', hleads, hfeed', way'⟩ := leads_shift hr way hvalid hnext hend ahead
    exact ⟨r, s', hleads, by rw [hfeed', hfeed]; rfl, way'⟩
  | node p children ih =>
    intro stack s xs it w rest e way hvalid hnext hw hfeed hlook
    obtain ⟨hp, hroots, hchildren⟩ := hT.of_node
    unfold eval at hw
    cases hws : evalAll semantics children with
    | error e => simp [hws] at hw
    | ok ws =>
      simp only [hws] at hw
      have hrest := hlook p.lhs rfl
      have hdrop : (Item.start p).production.rhs.drop (Item.start p).dot = children.map root :=
        hroots.symm
      obtain ⟨top, s₁, it₁, hleads, htop, hfeed₁, way₁, hvalid₁, hprod, hnone⟩ :=
        forest_reads (fun c hc => ih c hc (hchildren c hc)) hchildren way
          (hvalid.predict hnext hp) hdrop hws hfeed hrest
      rw [Item.start_production] at hprod
      subst hprod
      rw [hroots] at way₁ hvalid₁
      obtain ⟨r, s₂, hleads₂, hfeed₂, way₂⟩ := leads_reduce hr way₁ hvalid₁ hnone
        (by rw [← List.length_map (f := Prod.snd), htop]
            simp [evalAll_length hws, Production.size, ← hroots])
        (head_feed hfeed₁) hrest (by rw [htop, List.reverse_reverse]; exact hw)
      exact ⟨r, s₂, hleads.trans hleads₂, hfeed₂.trans hfeed₁, way₂⟩

/-! ## Whole parses -/

/-- The tree of a sentence is read from the bottom of the stack, and accepted. -/
theorem sentence_reads (hr : t.Renders (Automaton.build g) g.follow) (hT : T.Valid g)
    (hroot : T.root = .nonterminal g.start) (hw : eval semantics T = .ok w)
    (hfeed : s.stream.feed = ⟨T.tokens, .ok e⟩) :
    ∃ stack s' s'', Leads t semantics bottom s T.operations stack s' ∧
      next t semantics (.running stack, s') = (.accepted w, s'') ∧
      s''.trace = s.trace ++ T.operations ++ [.accept] := by
  have hc := Automaton.build_canonical g
  have hnext : (Item.start g.goal).next = some T.root := by rw [hroot]; rfl
  obtain ⟨it, hadv⟩ := Item.exists_advance hnext
  obtain ⟨hprod, hdot⟩ := Item.advance?_eq_some_iff.mp hadv
  have hend : it.next = some (.terminal endName) := by
    rw [Item.next, hprod, hdot]
    rfl
  have hfeed' : s.stream.feed = ⟨T.tokens ++ [], .ok e⟩ := by rw [hfeed, List.append_nil]
  have hkind : e.kind = endName := TokenStream.isEnd_of_feed_ending (by rw [hfeed])
  have hbottom : (Automaton.build g).Spells (bottom.map Prod.fst) [] := .bottom
  obtain ⟨r, s', hleads, hrest, way⟩ := tree_reads hr hT hbottom .goal hnext hw hfeed' fun n hn => by
      obtain rfl : g.start = n := by simpa [hroot] using hn
      simpa [hkind] using Grammar.end_mem_followOf_start g
  have hvalid := ValidItem.goal.advance hnext (by simp [hroot]) hadv
  have hm : t.move? r e.kind = some .accept :=
    hkind ▸ hr.accept_of ((hc.mem_items_iff way).mpr hvalid) hend
  have ahead : s'.stream.feed.head = .ok e := by rw [hrest]; rfl
  refine ⟨_, s', _, hleads, next_accept ahead hm, ?_⟩
  rw [Session.trace_pass, looked_trace ahead hm, hleads.trace]
  rfl

/-- The parse of a sentence ends with the value of its tree. -/
theorem sentence_ends (hr : t.Renders (Automaton.build g) g.follow) (hT : T.Valid g)
    (hroot : T.root = .nonterminal g.start) (hw : eval semantics T = .ok w)
    (hfeed : s.stream.feed = ⟨T.tokens, .ok e⟩) :
    ∃ s', Ends t semantics (.running bottom, s) (.ok w, s') ∧
      s'.trace = s.trace ++ T.operations ++ [.accept] := by
  obtain ⟨stack, s', s'', hleads, haccept, htrace⟩ := sentence_reads hr hT hroot hw hfeed
  refine ⟨s'', ⟨T.operations.length + 1, ?_⟩, htrace⟩
  rw [Function.iterate_succ_apply', hleads.moves, haccept]
  rfl

/-- If the table of a grammar has no conflicts it is built, and over any tokens
with the kinds of a derivation tree from the start symbol a parse ends with that
tree, after exactly its operations. -/
theorem parse_complete (hg : ∀ found, g.table ≠ .error (.conflicts found)) (hT : T.Valid g)
    (hroot : T.root = .nonterminal g.start) :
    ∃ t, g.table = .ok t ∧ ∀ (stream : TokenStream) (e : Token),
      stream.feed.tokens.map Token.kind = T.kinds → stream.feed.ending = .ok e →
      ∀ fuel : Nat, T.operations.length < fuel →
        ∃ s, parse? t .default fuel (.ofStream stream) =
            some (.ok (T.relabel stream.feed.tokens).value, s) ∧
          s.trace = T.operations ++ [.accept] := by
  obtain ⟨t, ht⟩ : ∃ t, g.table = .ok t :=
    (Grammar.table_ok_or_conflicts g).resolve_right fun ⟨found, h⟩ => hg found h
  refine ⟨t, ht, ?_⟩
  intro stream e hkinds hending fuel hfuel
  have hsame := relabel_spec g T stream.feed.tokens [] hkinds
  rw [List.append_nil] at hsame
  obtain ⟨stack, s, s', hleads, haccept, htrace⟩ :=
    sentence_reads (s := .ofStream stream) (e := e) (Grammar.table_renders ht) (hsame.valid hT)
      (hsame.root.trans hroot) (eval_default _) (by rw [hsame.tokens, ← hending]; rfl)
  obtain ⟨n, rfl⟩ := Nat.exists_eq_add_of_lt hfuel
  refine ⟨s', ?_, by simpa [Session.trace, Session.ofStream, hsame.operations] using htrace⟩
  have hmoves := hleads.moves
  rw [hsame.operations] at hmoves
  rw [parse?, run_eq_iterate, show T.operations.length + n + 1 = n + 1 + T.operations.length by omega,
    Function.iterate_add_apply, hmoves, Function.iterate_succ_apply, haccept,
    next_iterate_of_ended (o := (.ok (T.relabel stream.feed.tokens).value, s')) rfl]
  rfl

/-- The tree of a list of two items. -/
def twoItemsTree : ParseTree :=
  let item (n : Int) : ParseTree := .leaf ⟨"item", .int n, 0, 0⟩
  let more (l i : ParseTree) : ParseTree :=
    .node ⟨1, "list", [.nonterminal "list", .terminal "item"]⟩ [l, i]
  more (more (.node ⟨2, "list", []⟩ []) (item 1)) (item 2)

theorem twoItemsTree_valid : twoItemsTree.Valid listing := by
  have item (n : Int) : (ParseTree.leaf ⟨"item", .int n, 0, 0⟩).Valid listing := .leaf _
  have more {l i : ParseTree} (hl : l.Valid listing) (hi : i.Valid listing)
      (hroots : [l, i].map root = [.nonterminal "list", .terminal "item"]) :
      (ParseTree.node ⟨1, "list", [.nonterminal "list", .terminal "item"]⟩ [l, i]).Valid listing :=
    .node (by decide) hroots (by simp [hl, hi])
  exact more (more (.node (by decide) rfl (by simp)) (item 1) rfl) (item 2) rfl

theorem parse_complete_listing :
    ∃ t, listing.table = .ok t ∧ ∃ s,
      parse? t .default 6 (.ofStream twoItems) =
          some (.ok (twoItemsTree.relabel twoItems.feed.tokens).value, s) ∧
        s.trace = twoItemsTree.operations ++ [.accept] := by
  obtain ⟨t, ht, h⟩ := parse_complete (by simp [listing_table]) twoItemsTree_valid rfl
  exact ⟨t, ht, h twoItems ⟨"$", .none, 2, 2⟩ rfl rfl 6 (by decide)⟩

end Slr.StackParser
