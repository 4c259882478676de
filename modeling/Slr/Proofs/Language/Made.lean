import Slr.Proofs.Grammar.Rearranged
import Slr.Proofs.Parser.Agreement
import Slr.Proofs.Parser.Verdicts
import Slr.Rule.Gather

/-! # Parsing with a grammar that was made

A grammar in use was made, from rules or from drafts of productions, and made into a
table, from which either parser works. What is said of a parse is said of both
parsers, with all fuel from some amount on and with so many calls that may be open. -/

namespace Slr

open ParseTree StackParser

/-- The grammar of drafts, if they have a shape. -/
theorem Workshop.grammar_of_gather {family : RuleFamily} {index : Nat} {found : List Draft}
    (h : (Workshop.gather ((Workshop.empty family).refTo (.written index)) (.empty family)).1 =
      .ok found) :
    (Workshop.grammar index (.empty family)).1 = AttributedGrammar.ofDrafts found
      (.nonterminal ((Workshop.empty family).refTo (.written index)).name) := by
  rcases hgather : Workshop.gather ((Workshop.empty family).refTo (.written index)) (.empty family)
    with ⟨result, w⟩
  rw [hgather] at h
  obtain rfl : result = .ok found := h
  simp only [Workshop.grammar, hgather]

/-- A grammar was made and has a table, and with it both parsers end a parse in one of these
ways, the recursive ascent parser if so many calls may be open. -/
def Parses (made : Except GrammarError AttributedGrammar) (stream : TokenStream) (calls : Nat)
    (P : Outcome Value → Prop) : Prop :=
  ∃ g t, made = .ok g ∧ g.grammar.table = .ok t ∧
    BothEnd t g.semantics (.ofStream stream) calls P

/-- A parse ended with a value. -/
def Returns (v : Value) (o : Outcome Value) : Prop := o.1 = .ok v

/-- A parse was given up at a token, with so many tokens before it. -/
def Refuses (tok : Token) (position : Nat) (o : Outcome Value) : Prop :=
  o.2.position = position ∧ ∃ state expected, o.1 = .error (.unexpectedToken tok state expected)

variable {g : Grammar} {semantics : Semantics} {t : Table} {stream : TokenStream}
  {result : Except ParseError Value} {s : Session} {ts : List Token} {e : Token} {v : Value}
  {n : String} {word : List String} {M : Meaning} {room : Nat}

/-- What the start symbol yields is returned, with a call for each symbol that it takes room for
and that of the start state. -/
theorem returns_of_yields (ht : g.table = .ok t) (hfeed : stream.feed = ⟨ts, .ok e⟩)
    (hy : g.YieldsIn semantics room g.start v ts) :
    BothEnd t semantics (.ofStream stream) (room + 1) (Returns v) := by
  obtain ⟨T, hT, hroot, rfl, hv, hroom⟩ := hy
  have hr := Grammar.table_renders ht
  have hinput : (Session.ofStream stream).stream.feed = ⟨T.tokens, .ok e⟩ := hfeed
  obtain ⟨s, hends, -⟩ := sentence_ends hr hT hroot hv hinput
  have hboth := bothEnd_of_ends hr hends (by simp) (within_of_sentence hr semantics hT hroot hinput)
  exact hboth.imp (Nat.succ_le_succ hroom) fun o ho => ho.1

/-! ## Actions that keep a meaning -/

theorem Grammar.Keeps.sentence_iff (h : g.Keeps semantics M) :
    g.Sentence word ↔ ∃ v ts, g.Yields semantics g.start v ts ∧ ts.map Token.kind = word := by
  constructor
  · intro hs
    obtain ⟨T, hT, hroot, rfl⟩ := hs
    obtain ⟨v, hv, -⟩ := h.exists_eval hT
    exact ⟨v, T.tokens, ⟨_, T, hT, hroot, rfl, hv, Nat.le_refl _⟩, rfl⟩
  · intro hy
    obtain ⟨v, ts, ⟨_, T, hT, hroot, rfl, -⟩, rfl⟩ := hy
    exact ⟨T, hT, hroot, rfl⟩

/-- If the actions keep a meaning, a parse returns what the start symbol yields, or refuses
the token where the input stops being the beginning of a sentence. -/
theorem Grammar.Keeps.bothEnd (h : g.Keeps semantics M) (hg : g.Grounded) (ht : g.table = .ok t)
    (hfeed : stream.feed = ⟨ts, .ok e⟩) (hposition : stream.position = 0) :
    (∃ calls v, g.Yields semantics g.start v ts ∧
        BothEnd t semantics (.ofStream stream) calls (Returns v)) ∨
      ∃ calls p tok, g.StopsAt ts e p tok ∧
        BothEnd t semantics (.ofStream stream) calls (Refuses tok p) := by
  have htotal : ∀ T : ParseTree, T.Valid g → ∃ v, eval semantics T = .ok v := fun T hT => by
    obtain ⟨v, hv, -⟩ := h.exists_eval hT
    exact ⟨v, hv⟩
  have hstart : (Session.ofStream stream).position = 0 := hposition
  have hinput : (Session.ofStream stream).stream.feed = ⟨ts, .ok e⟩ := hfeed
  rcases ends_of_total hg ht htotal hinput with
    ⟨v, s, hy, -⟩ | ⟨p, tok, state, expected, s, hstops, hp, hends⟩
  · obtain ⟨room, hroom⟩ := hy
    exact Or.inl ⟨room + 1, v, ⟨room, hroom⟩, returns_of_yields ht hfeed hroom⟩
  · have hr := Grammar.table_renders ht
    obtain ⟨calls, hwithin⟩ := exists_within hr hends
    have hboth := bothEnd_of_ends hr hends (by simp) hwithin
    refine Or.inr ⟨calls, p, tok, hstops, hboth.imp (Nat.le_refl calls) ?_⟩
    intro o ho
    refine ⟨?_, state, expected, ho.1⟩
    rw [Session.position, ho.2.stream, ← Session.position, hp, hstart, Nat.zero_add]

/-- Every nonterminal but the goal yields something. -/
theorem Grammar.grounded_of_yields (semantics : Semantics) (hstart : g.start ≠ goalName)
    (h : ∀ p ∈ g.productions, p ≠ g.goal → ∃ v ts, g.Yields semantics p.lhs v ts) : g.Grounded := by
  intro n hn
  have hne : n ≠ goalName := by
    intro hgoal
    cases hn with
    | start => exact hstart hgoal
    | part _ hp hn => exact hstart (start_eq_goalName_of_mem_rhs hp (hgoal ▸ hn))
  obtain ⟨p, hp, rfl⟩ := mem_nonterminals.mp hn.mem_nonterminals
  obtain ⟨v, ts, _, T, hT, hroot, -⟩ := h p hp fun hgoal => hne (hgoal ▸ rfl)
  exact ⟨T, hT, hroot⟩

end Slr
