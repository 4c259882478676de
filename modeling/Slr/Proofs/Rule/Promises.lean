import Slr.Proofs.Parser.Handed
import Slr.Proofs.Rule.Reading
import Slr.Proofs.Rule.Repeated
import Slr.Proofs.Table.Cover

/-! # What repetitions promise

A hidden rule stands over as many words of its sequence as its repetition allows, and its
value is made of one item for each of them, in order. That holds of every value that an
action is handed in a parse, by the table or by recursive ascent. In memory the list is
nobody else's when it is handed over, and what stands there is the value. -/

namespace Slr

open ParseTree StackParser

/-- The repetitions that a tree is over, one for each of the items that its value is made of. -/
structure Completes (g : Grammar) (semantics : Semantics) (n : String) (repetition : Repetition)
    (words : List (List Symbol)) (T : ParseTree) (v : Value) (rounds : List (List ParseTree))
    (items : List Value) : Prop where
  shape : Rounds semantics n repetition T rounds
  allowed : repetition.Allows rounds.length
  rounds_over : ∀ round ∈ rounds, round.map root ∈ words ∧ ∀ U ∈ round, U.Valid g
  tokens : tokensOf rounds.flatten = T.tokens
  gives : List.Forall₂ (Round.Gives semantics) rounds items
  value : v = repetition.valueOf items

/-- A call is for a node, and what it is handed in the place of a repetition is its value. -/
def HandsOver (g : Grammar) (semantics : Semantics) (n : String) (repetition : Repetition)
    (words : List (List Symbol)) (tokens : List Token) (call : Production × List Value) : Prop :=
  ∃ children, Hands g semantics tokens call children ∧
    ∀ (j : Nat) T v, children[j]? = some T → call.2[j]? = some v → T.root = .nonterminal n →
      ∃ rounds items, Completes g semantics n repetition words T v rounds items

/-- What operations come to: the things that are held, the first first, and memory. -/
def Operation.ComeTo (deeds : Production → Deed) (ops : List Operation) (stream : TokenStream)
    (m : Memory) (things : List Thing) (tokens : List Token) (m' : Memory) : Prop :=
  ops.foldlM (Operation.perform deeds) ⟨[], stream.feed.tokens, m⟩ = .ok ⟨things.reverse, tokens, m'⟩

/-- What is promised of a nonterminal that repeats words. -/
structure Promises (g : Grammar) (semantics : Semantics) (t : Table) (n : String)
    (repetition : Repetition) (words : List (List Symbol)) : Prop where
  language : ∀ word : List String, g.Derives [.nonterminal n] (word.map .terminal) ↔
    ∃ parts : List (List String), repetition.Allows parts.length ∧ parts.flatten = word ∧
      ∀ part ∈ parts, ∃ w ∈ words, g.Derives w (part.map .terminal)
  /-- Its own actions do not fail. -/
  succeeds : ∀ p children values, (node p children).Valid g → p.lhs = n →
    evalAll semantics children = .ok values → ∃ v, semantics.value p values = .ok v
  /-- At every moment of a parse by the table. -/
  stack : ∀ stream moves,
    ∀ call ∈ ((next t semantics)^[moves] (.running bottom, .ofStream stream)).2.calls,
      HandsOver g semantics n repetition words stream.feed.tokens call
  /-- In every parse by recursive ascent. -/
  ascent : ∀ stream limit fuel result s,
    Ascent.parse? t semantics limit fuel (.ofStream stream) = some (result, s) →
      ∀ call ∈ s.calls, HandsOver g semantics n repetition words stream.feed.tokens call
  /-- With lists in memory, each repetition that a parse holds has by then made of its items what
  it should, and nobody else has got at it. -/
  memory : ∀ own deeds, Deeds g semantics n own deeds → ∀ stream moves stack s m things tokens m',
    (next t semantics)^[moves] (.running bottom, .ofStream stream) = (.running stack, s) →
    m.Tidy [] → own ≤ m.length → Operation.ComeTo deeds s.trace stream m things tokens m' →
    ∃ forest : List ParseTree, Represents g semantics stack forest.reverse ∧
      ∀ (j : Nat) T, forest[j]? = some T → T.root = .nonterminal n →
        ∃ before m₁ rounds items thing, runAll deeds (forest.take j) m = .ok (before, m₁) ∧
          Fills semantics n deeds m₁ repetition T rounds items ∧ things[j]? = some thing ∧
          Owns own m m' (things.eraseIdx j) repetition thing items
  /-- With actions that leave lists alone, what a parse holds reads as the values on its stack. -/
  reads : ∀ own deeds, Faithful g semantics own deeds → ∀ stream moves stack s m,
    (next t semantics)^[moves] (.running bottom, .ofStream stream) = (.running stack, s) →
    m.Tidy [] → own ≤ m.length →
    ∃ things m' values, Operation.ComeTo deeds s.trace stream m things s.stream.feed.tokens m' ∧
      m'.ReadsAll things values ∧ stack.map Prod.snd = values.reverse ++ [.none]

variable {g : Grammar} {semantics : Semantics} {t : Table} {n : String} {repetition : Repetition}
  {words : List (List Symbol)} {T : ParseTree} {v : Value} {tokens : List Token}
  {call : Production × List Value} {children : List ParseTree}

/-- What a parser has done by a moment runs, in memory, the forest that its stack stands over. -/
theorem exists_comeTo_iff {follow : Lookahead} (hr : t.Renders (Automaton.build g) follow)
    {stream : TokenStream} {moves : Nat} {stack : Stack} {s : Session}
    (h : (next t semantics)^[moves] (.running bottom, .ofStream stream) = (.running stack, s)) :
    ∃ forest : List ParseTree, Represents g semantics stack forest.reverse ∧
      ∀ deeds m things tokens m', Operation.ComeTo deeds s.trace stream m things tokens m' ↔
        runAll deeds forest m = .ok (things, m') ∧ tokens = s.stream.feed.tokens := by
  obtain ⟨forest, hreads⟩ := reads_iterate hr h
  refine ⟨forest.reverse, by simpa using hreads.represents, ?_⟩
  intro deeds m things tokens m'
  have hvalid : ∀ T ∈ forest.reverse, T.Valid g :=
    fun T hT => hreads.represents.valid T (List.mem_reverse.mp hT)
  have htokens : stream.feed.tokens = tokensOf forest.reverse ++ s.stream.feed.tokens := hreads.tokens
  have htrace : s.trace = operationsOf forest.reverse := hreads.trace
  rw [Operation.ComeTo, htrace, htokens, perform_operationsOf hvalid]
  cases runAll deeds forest.reverse m with
  | error e => simp [Except.map]
  | ok r => simp [Except.map, Prod.ext_iff, eq_comm, and_assoc, and_comm]

namespace Grammar.Repeats

theorem exists_completes (h : g.Repeats semantics n repetition words) (hT : T.Valid g)
    (hroot : T.root = .nonterminal n) (hv : eval semantics T = .ok v) :
    ∃ rounds items, Completes g semantics n repetition words T v rounds items := by
  obtain ⟨rounds, hrounds, hwords⟩ := h.exists_rounds hT hroot
  obtain ⟨items, hitems, hvalue⟩ := hrounds.eval_eq_ok_iff.mp hv
  exact ⟨rounds, items, hrounds, hrounds.allowed, hwords, hrounds.tokens, hitems, hvalue⟩

theorem handsOver (h : g.Repeats semantics n repetition words)
    (hhands : ∃ children, Hands g semantics tokens call children) :
    HandsOver g semantics n repetition words tokens call := by
  obtain ⟨children, hchildren⟩ := hhands
  obtain ⟨-, -, hvalid⟩ := hchildren.valid.of_node
  refine ⟨children, hchildren, ?_⟩
  intro j T v hT hv hroot
  exact h.exists_completes (hvalid T (List.mem_of_getElem? hT)) hroot
    (eval_of_getElem? hchildren.operands hT hv)

/-- Where the rounds have values, going on does not fail. -/
theorem exists_value (h : g.Repeats semantics n repetition words) {p : Production}
    {values : List Value} (hnode : (node p children).Valid g) (hlhs : p.lhs = n)
    (hvalues : evalAll semantics children = .ok values) :
    ∃ v, semantics.value p values = .ok v := by
  have hvalue {v : Value} (hv : eval semantics (.node p children) = .ok v) :
      semantics.value p values = .ok v := (eval_node hvalues).symm.trans hv
  obtain ⟨rounds, hrounds, -⟩ := h.exists_rounds hnode (congrArg Symbol.nonterminal hlhs)
  have heval := fun items => (hrounds.eval_eq_ok_iff (v := repetition.valueOf items)).mpr
  cases hrounds with
  | absent | empty => exact ⟨_, hvalue (heval [] ⟨[], .nil, rfl⟩)⟩
  | present | first =>
    exact ⟨_, hvalue (heval [_] ⟨_, .cons ⟨values, hvalues, rfl⟩ .nil, rfl⟩)⟩
  | more lhs acts hmany before =>
    obtain ⟨w, ws, hw, hws, rfl⟩ := evalAll_cons_inv hvalues
    obtain ⟨items, hitems, -⟩ := before.eval_eq_ok_iff.mp hw
    exact ⟨_, hvalue (heval _ ⟨_, List.rel_append hitems (.cons ⟨ws, hws, rfl⟩ .nil), rfl⟩)⟩

theorem promises (h : g.Repeats semantics n repetition words) (ht : g.table = .ok t) :
    Promises g semantics t n repetition words where
  language := fun _ => h.derives_iff
  succeeds := fun _ _ _ => h.exists_value
  stack := fun _ _ _ hcall => h.handsOver (hands_of_iterate (table_renders ht) rfl hcall)
  ascent := fun _ _ _ _ _ hparse _ hcall =>
    h.handsOver (Ascent.hands_of_parse (table_renders ht) rfl hparse hcall)
  memory := fun own deeds hdeeds stream moves stack s m things tokens m' hmoves htidy hown hcome => by
    obtain ⟨forest, hrepresents, hiff⟩ := exists_comeTo_iff (table_renders ht) hmoves
    obtain ⟨hrun, -⟩ := (hiff deeds m things tokens m').mp hcome
    refine ⟨forest, hrepresents, ?_⟩
    intro j T hj hroot
    exact h.owns hdeeds (fun T hT => hrepresents.valid T (List.mem_reverse.mpr hT)) htidy hown hrun
      hj hroot
  reads := fun own deeds hdeeds stream moves stack s m hmoves htidy hown => by
    obtain ⟨forest, hrepresents, hiff⟩ := exists_comeTo_iff (table_renders ht) hmoves
    obtain ⟨values, hvalues, hstack⟩ := hrepresents.values
    have hvalid : ∀ T ∈ forest, T.Valid g :=
      fun T hT => hrepresents.valid T (List.mem_reverse.mpr hT)
    rw [List.reverse_reverse] at hvalues
    obtain ⟨things, m', hrun, -, hreads⟩ := reaches_all
      (fun T hT m v htidy hown hv => hdeeds.reaches (hvalid T hT) htidy hown hv) hdeeds.careful hvalid
      htidy hown hvalues
    exact ⟨things, m', values, (hiff deeds m things _ m').mpr ⟨hrun, rfl⟩, hreads, hstack⟩

end Grammar.Repeats

namespace Workshop

/-- In every grammar that has a table and was gathered from rules, whatever was gathered before,
a hidden rule has the language of its repetition over the alternatives of its sequence, and the
value it has for them. -/
theorem hidden_promises {f : RuleFamily} {w : Workshop} {starts : List Nat} {i : Nat} {r : RuleRef}
    {rule : HiddenRule} {G : AttributedGrammar} (hclosed : f.isClosed = true)
    (h : ofFamily f = .ok w) (hstarts : ∀ i ∈ starts, i < f.rules.length) (hi : i < f.rules.length)
    (hG : (grammar i (w.afterGathering starts)).1 = .ok G) (ht : G.grammar.table = .ok t)
    (hr : w.Leads (w.refTo (.written i)) r)
    (hrule : (w.knowing r.id).hidden.lookup r.id = some rule) :
    ∃ alternatives, sequenced rule.parts = .ok alternatives ∧
      Promises G.grammar G.semantics t r.name rule.repetition
        (alternatives.map Alternative.symbols) := by
  obtain ⟨alternatives, halternatives, hrepeats⟩ := repeats_of_grammar hclosed h hstarts hi hG hr hrule
  exact ⟨alternatives, halternatives, hrepeats.promises ht⟩

/-- Any number of `x`. -/
def line : RuleFamily where
  rules := [⟨"line", .repeated .zeroOrMore [.terminal "x"]⟩]
  shared := []

def lineGrammar : AttributedGrammar where
  grammar := {
    start := "line"
    productions := [.goal "line", ⟨1, "line", [.nonterminal "__gen_line_0"]⟩, ⟨2, "__gen_line_0", []⟩,
      ⟨3, "__gen_line_0", [.nonterminal "__gen_line_0", .terminal "x"]⟩]
    wellFormed :=
      ⟨rfl, by decide, by decide, by decide, by simp [Production.goal],
        by simp [Production.goal, endName, goalName]⟩ }
  actions := [none, none, some .list, some extendList]

def lineDrafts : List Draft :=
  [⟨.nonterminal "line", [.nonterminal "__gen_line_0"], none⟩,
    ⟨.nonterminal "__gen_line_0", [], some .list⟩,
    ⟨.nonterminal "__gen_line_0", [.nonterminal "__gen_line_0", .terminal "x"], some extendList⟩]

theorem line_grammar : (grammar 0 ((empty line).afterGathering [0])).1 = .ok lineGrammar := by
  have hfound : (grammar 0 ((empty line).afterGathering [0])).1 =
      AttributedGrammar.ofDrafts lineDrafts (.nonterminal "line") := rfl
  have hstates : Draft.States lineDrafts [("line", [.nonterminal "__gen_line_0"]),
      ("__gen_line_0", []), ("__gen_line_0", [.nonterminal "__gen_line_0", .terminal "x"])] := rfl
  have hconsistent : Draft.Consistent [("line", [.nonterminal "__gen_line_0"]), ("__gen_line_0", []),
      ("__gen_line_0", [.nonterminal "__gen_line_0", .terminal "x"])] :=
    ⟨by decide, by decide, by simp, by simp⟩
  rw [hfound]
  exact AttributedGrammar.ofDrafts_eq ((Draft.shape_iff (Or.inl rfl)).mpr
    ⟨rfl, _, rfl, hstates, hconsistent, Or.inr (by decide)⟩)

/-- A place in each production of which nothing has been seen, and so on over every symbol. -/
theorem line_cover : lineGrammar.grammar.Cover
    [[(0, 0), (1, 0), (2, 0), (3, 0)], [(1, 1), (3, 1)], [(0, 1)], [(3, 2)]] := by decide

theorem line_cases {p : Production} (hp : p ∈ lineGrammar.grammar.productions) :
    p = .goal "line" ∨ p = ⟨1, "line", [.nonterminal "__gen_line_0"]⟩ ∨
      p = ⟨2, "__gen_line_0", []⟩ ∨
      p = ⟨3, "__gen_line_0", [.nonterminal "__gen_line_0", .terminal "x"]⟩ := by
  simpa [lineGrammar] using hp

def lineDeeds : Production → Deed
  | ⟨2, _, _⟩ => .list
  | ⟨3, _, _⟩ => .extendList
  | p => .node p.lhs

theorem line_deeds : Deeds lineGrammar.grammar lineGrammar.semantics "__gen_line_0" 0 lineDeeds where
  careful := by
    intro p hp
    rcases line_cases hp with rfl | rfl | rfl | rfl
    · exact Deed.careful_node _
    · exact Deed.careful_node _
    · exact Turn.careful .empty 0
    · exact Turn.careful .more 0
  turns := by
    intro p hp hlhs turn hturn
    rcases line_cases hp with rfl | rfl | rfl | rfl
    · exact absurd hlhs (by decide)
    · exact absurd hlhs (by decide)
    · obtain rfl : Turn.empty = turn := Turn.action_injective (Option.some.inj hturn)
      rfl
    · obtain rfl : Turn.more = turn := Turn.action_injective (Option.some.inj hturn)
      rfl

theorem line_repeats : lineGrammar.grammar.Repeats lineGrammar.semantics "__gen_line_0" .zeroOrMore
    [[.terminal "x"]] where
  turn := by
    intro p hp hlhs
    rcases line_cases hp with rfl | rfl | rfl | rfl
    · exact absurd hlhs (by decide)
    · exact absurd hlhs (by decide)
    · exact ⟨.empty, .empty, rfl⟩
    · exact ⟨.more, .more (by simp) List.mem_cons_self, rfl⟩
  production := by
    intro turn rhs h
    cases h with
    | empty => exact ⟨_, .tail _ (.tail _ (.head _)), rfl, rfl, rfl⟩
    | more _ hw =>
      obtain rfl := List.mem_singleton.mp hw
      exact ⟨_, .tail _ (.tail _ (.tail _ (.head _))), rfl, rfl, rfl⟩

theorem line_faithful : Faithful lineGrammar.grammar lineGrammar.semantics 0 lineDeeds where
  careful := line_deeds.careful
  does := by
    intro p hp
    rcases line_cases hp with rfl | rfl | rfl | rfl
    · exact Or.inl (Deed.does_node rfl)
    · exact Or.inl (Deed.does_node rfl)
    · exact Or.inr ⟨_, _, line_repeats, line_deeds⟩
    · exact Or.inr ⟨_, _, line_repeats, line_deeds⟩

/-- Two of `x`: a list of two items in the first cell, in a node. -/
example : Operation.ComeTo lineDeeds
    [.reduce ⟨2, "__gen_line_0", []⟩, .shift "x",
      .reduce ⟨3, "__gen_line_0", [.nonterminal "__gen_line_0", .terminal "x"]⟩, .shift "x",
      .reduce ⟨3, "__gen_line_0", [.nonterminal "__gen_line_0", .terminal "x"]⟩,
      .reduce ⟨1, "line", [.nonterminal "__gen_line_0"]⟩]
    (.ofItems [.pair "x" (.int 1), .pair "x" (.int 2)] true) []
    [.tree "line" [.list 0]] [] [[.plain (.int 1), .plain (.int 2)]] := rfl

/-- The rule that `line` repeats with, in a grammar that is made after another one. -/
theorem hidden_promises_line : line.isClosed = true ∧ ofFamily line = .ok (empty line) ∧
    (grammar 0 ((empty line).afterGathering [0])).1 = .ok lineGrammar ∧
    Faithful lineGrammar.grammar lineGrammar.semantics 0 lineDeeds ∧
    ∃ t, lineGrammar.grammar.table = .ok t ∧
      Promises lineGrammar.grammar lineGrammar.semantics t "__gen_line_0" .zeroOrMore
        [[.terminal "x"]] := by
  obtain ⟨t, ht⟩ := line_cover.exists_table
  have hstarts : ∀ i ∈ [0], i < line.rules.length := by decide
  have hleads : (empty line).Leads ((empty line).refTo (.written 0))
      ⟨.hidden (some 0) 0, "__gen_line_0"⟩ := (Reachability.Path.refl _).tail (by decide)
  have hrule : ((empty line).knowing (.hidden (some 0) 0)).hidden.lookup (.hidden (some 0) 0) =
      some ⟨"__gen_line_0", .zeroOrMore, [.terminal "x"]⟩ := rfl
  obtain ⟨alternatives, halternatives, hpromises⟩ := hidden_promises (f := line) (w := empty line)
    (i := 0) rfl rfl hstarts (by decide) line_grammar ht hleads hrule
  cases halternatives
  exact ⟨rfl, rfl, line_grammar, line_faithful, t, ht, hpromises⟩

end Workshop

end Slr
