import Slr.Proofs.Parser.Agreement
import Slr.Proofs.Parser.Rejection

/-! # Which parses end

If every nonterminal that derivations come to derives a word, each parse ends
after finitely many moves, and if nothing is raised in it, it accepts or meets a
token without a move. Both parsers end so. Without that a table may have no
conflicts and still reduce for ever. -/

namespace Slr.StackParser

open ParseTree

variable {g : Grammar} {semantics : Semantics} {follow : Lookahead} {t : Table}
  {stream : TokenStream} {result : Except ParseError Value} {s s' : Session}

/-- Nothing is raised in a parse: no item of the source is a fault, and no call fails. -/
structure Quiet (t : Table) (semantics : Semantics) (stream : TokenStream) : Prop where
  source : ∀ src f, stream.source = some src → .fault f ∉ src.items
  calls : ∀ n p values,
    .called p values ∈ ((next t semantics)^[n] (.running bottom, .ofStream stream)).2.events →
      ∃ v, semantics.value p values = .ok v

/-- The two ends that a parse comes to by itself. -/
inductive Verdict : Except ParseError Value → Prop
  | accepts (v : Value) : Verdict (.ok v)
  | rejects (tok : Token) (state : Nat) (expected : List String) :
      Verdict (.error (.unexpectedToken tok state expected))

/-- A parse in which nothing is raised comes to an end by itself, if it ends. -/
theorem Quiet.verdict (h : Quiet t semantics stream) (hr : t.Renders (Automaton.build g) follow)
    (hends : Ends t semantics (.running bottom, .ofStream stream) (result, s)) :
    Verdict result := by
  cases ending_of_ends hr hends with
  | accepted v => exact .accepts v
  | unexpected tok state expected => exact .rejects tok state expected
  | fault hsrc hitem => exact absurd hitem (h.source _ _ hsrc)
  | @failed p values e call fails =>
    obtain ⟨n, hn⟩ := hends
    obtain ⟨v, hv⟩ := h.calls n p values (session_of_outcome? hn ▸ call)
    rw [fails] at hv
    cases hv

/-- A parse over a table without conflicts ends after finitely many moves if every
nonterminal that derivations come to derives a word. If nothing is raised, it has
accepted or met a token without a move, and the recursive ascent parser does the same,
unless fewer calls may be open than it needs. -/
theorem parse_ends (hg : g.Grounded) (ht : g.table = .ok t) (h : Quiet t semantics stream) :
    ∃ (calls : Nat) (result : Except ParseError Value), Verdict result ∧
      BothEnd t semantics (.ofStream stream) calls fun o => o.1 = result := by
  have hr := Grammar.table_renders ht
  obtain ⟨⟨result, s⟩, hends⟩ := ends_of_grounded hg ht semantics (.ofStream stream)
  have hverdict := h.verdict hr hends
  obtain ⟨calls, hwithin⟩ := exists_within hr hends
  have hboth := bothEnd_of_ends hr hends (fun message => by cases hverdict <;> simp) hwithin
  exact ⟨calls, result, hverdict, hboth.imp (Nat.le_refl _) fun o ho => ho.1⟩

/-- Actions that put the values they are given into a list. -/
def gather : Semantics := fun _ => some .list

theorem gather_quiet : Quiet listingTable gather twoItems where
  source := fun src f hsrc => by
    cases hsrc
    simp
  calls := fun _ _ _ _ => ⟨_, rfl⟩

theorem parse_ends_listing :
    ∃ (calls : Nat) (result : Except ParseError Value), Verdict result ∧
      BothEnd listingTable gather (.ofStream twoItems) calls fun o => o.1 = result :=
  parse_ends listing_productive.grounded listing_table gather_quiet

/-! ## A table that reduces for ever

Behind an `A` has to come an `N`, which begins with an `N`, so there is none. All that
the state between them can do is to reduce an `A` to an `A`, and it does so on the `t`
that stands behind an `A` in a production that no derivation comes to. -/

def endless : Grammar where
  start := "S"
  productions :=
    [.goal "S", ⟨1, "S", [.nonterminal "A", .nonterminal "N"]⟩, ⟨2, "A", [.nonterminal "A"]⟩,
      ⟨3, "A", []⟩, ⟨4, "N", [.nonterminal "N", .terminal "t"]⟩,
      ⟨5, "U", [.nonterminal "A", .terminal "t"]⟩]
  wellFormed :=
    ⟨rfl, by decide, by decide, by decide, by simp [Production.goal],
      by simp [Production.goal, endName, goalName]⟩

def endlessTable : Table where
  actions :=
    let whole : Move := .reduce ⟨1, "S", [.nonterminal "A", .nonterminal "N"]⟩
    let again : Move := .reduce ⟨2, "A", [.nonterminal "A"]⟩
    let none : Move := .reduce ⟨3, "A", []⟩
    let more : Move := .reduce ⟨4, "N", [.nonterminal "N", .terminal "t"]⟩
    [[("t", none)], [("t", again)], [("$", .accept)], [("$", whole), ("t", .shift 4)],
      [("$", more), ("t", more)]]
  gotos := [[("A", 1), ("S", 2)], [("N", 3)], [], [], []]
  depths := [0, 1, 1, 2, 2]
  productions := endless.productions
  states :=
    [["__goal -> * S $", "S -> * A N", "A -> * A", "A -> *"],
      ["S -> A * N", "A -> A *", "N -> * N t"], ["__goal -> S * $"],
      ["S -> A N *", "N -> N * t"], ["N -> N t *"]]

theorem endless_table : endless.table = .ok endlessTable := by
  have hitems : endless.items.length = 15 := by decide
  have hfuel : Nat.pow 2 15 = 32768 := rfl
  unfold Grammar.table Automaton.build
  rw [hitems, hfuel]
  cbv

/-- A single `t`. -/
def onlyT : TokenStream := .ofItems [.pair "t" (.str "t")] true

/-- A parse between the `A` and the `N`, with `t` ahead. -/
def Spins (c : Config) : Prop :=
  ∃ v s tok, c = (.running [(1, v), (0, .none)], s) ∧ s.stream.feed.head = .ok tok ∧ tok.kind = "t"

theorem Spins.next {c : Config} (h : Spins c) : Spins (next endlessTable .default c) := by
  obtain ⟨v, s, tok, rfl, ahead, hkind⟩ := h
  have hmove : endlessTable.move? 1 tok.kind = some (.reduce ⟨2, "A", [.nonterminal "A"]⟩) := by
    rw [hkind]
    rfl
  rw [next_reduce ahead hmove]
  exact ⟨_, _, tok, rfl, (congrArg Feed.head (looked_feed ahead)).trans ahead, hkind⟩

/-- However many moves it makes, the parse of `t` does not end. -/
theorem spins_iterate (n : Nat) :
    Spins ((StackParser.next endlessTable .default)^[n + 1]
      (.running bottom, .ofStream onlyT)) := by
  induction n with
  | zero => exact ⟨_, _, ⟨"t", .str "t", 0, 1⟩, rfl, rfl, rfl⟩
  | succ n ih =>
    rw [Function.iterate_succ_apply']
    exact ih.next

/-- Nor does its stack grow any higher. -/
theorem endless_within : Within endlessTable .default 2 (.ofStream onlyT) := by
  intro _ n _ stack s hrun
  cases n with
  | zero =>
    cases hrun
    decide
  | succ n =>
    obtain ⟨v, s', tok, hspins, -⟩ := spins_iterate n
    rw [hspins] at hrun
    cases hrun
    exact Nat.le_refl 2

theorem endless_not_ends (o : Outcome Value) :
    ¬ Ends endlessTable .default (.running bottom, .ofStream onlyT) o := by
  intro h
  obtain ⟨n, hn⟩ := h
  obtain ⟨v, s, tok, hspins, -⟩ := spins_iterate n
  have hlater := outcome?_mono (Nat.le_succ n) hn
  rw [hspins] at hlater
  cases hlater

/-- Neither parser ends on `t`, for all that the table has no conflicts and nothing is raised. -/
theorem endless_never_ends :
    endless.table = .ok endlessTable ∧
      Quiet endlessTable .default onlyT ∧
      ∀ fuel,
        parse? endlessTable .default fuel (.ofStream onlyT) = none ∧
          ∀ limit, 2 ≤ limit →
            Ascent.parse? endlessTable .default limit fuel (.ofStream onlyT) = none := by
  refine ⟨endless_table, ⟨?_, fun _ _ _ _ => ⟨_, rfl⟩⟩, fun fuel => ⟨?_, fun limit hlimit => ?_⟩⟩
  · intro src f hsrc
    cases hsrc
    simp
  · rw [Option.eq_none_iff_forall_ne_some]
    intro o h
    exact endless_not_ends o (ends_iff_run.mpr ⟨fuel, h⟩)
  · rw [Option.eq_none_iff_forall_ne_some]
    intro o h
    cases Ascent.concludes (Grammar.table_renders endless_table) h with
    | ended _ ends => exact endless_not_ends _ ends
    | exhausted _ ends => exact endless_not_ends _ ends
    | outgrown outgrows => exact outgrows.not_within (endless_within.mono hlimit)

end Slr.StackParser
