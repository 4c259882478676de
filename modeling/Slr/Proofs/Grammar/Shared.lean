import Slr.Proofs.Derivation.Tree
import Slr.Proofs.Grammar.Symbols

/-! # Grammars with some rules in common

What a parser meets depends on few of the rules: those of the goal, and of nonterminals
that live rules lead to. A grammar carries over to another what it has for live
nonterminals if the other has the same rules for them, and if these rules stand for
live nonterminals only. Rules for nonterminals out of reach are the ones that a grammar
may have on top. -/

namespace Slr.Grammar

/-- The rules for live nonterminals are rules of the other grammar too, and lead to live
nonterminals only. -/
structure Carries (live : String → Prop) (g g' : Grammar) : Prop where
  rules : ∀ p ∈ g.productions, live p.lhs → ∃ p' ∈ g'.productions, p'.rule = p.rule
  closed : ∀ p ∈ g.productions, live p.lhs → ∀ n, .nonterminal n ∈ p.rhs → live n

/-- Live nonterminals stand in rules for live nonterminals only. -/
def Fenced (live : String → Prop) (g : Grammar) : Prop :=
  ∀ p ∈ g.productions, ∀ n, live n → .nonterminal n ∈ p.rhs → live p.lhs

/-- Two grammars have the same start, and the same rules for live nonterminals. -/
structure Shares (live : String → Prop) (g g' : Grammar) : Prop where
  start_eq : g.start = g'.start
  goal : live goalName
  forth : g.Carries live g'
  back : g'.Carries live g

/-- The other grammar has all rules, and more of them for nonterminals out of reach. -/
structure Enlarges (g g' : Grammar) : Prop where
  start_eq : g.start = g'.start
  kept : ∀ p ∈ g.productions, ∃ p' ∈ g'.productions, p'.rule = p.rule
  dead : ∀ p' ∈ g'.productions, g.Reached p'.lhs → ∃ p ∈ g.productions, p.rule = p'.rule

/-- The goal and what derivations come to. -/
def Live (g : Grammar) (n : String) : Prop := n = goalName ∨ g.Reached n

variable {live : String → Prop} {g g' : Grammar} {n : String}

/-- Rules of live nonterminals lead to live ones. -/
theorem Live.of_mem_rhs {p : Production} (hlive : g.Live p.lhs) (hp : p ∈ g.productions)
    (hn : .nonterminal n ∈ p.rhs) : g.Live n := by
  rcases hlive with hgoal | hreached
  · rw [eq_goal_of_lhs hp hgoal] at hn
    obtain rfl : n = g.start := by simpa [Grammar.goal, Production.goal] using hn
    exact Or.inr .start
  · exact Or.inr (.part hreached hp hn)

theorem fenced_all (g : Grammar) : g.Fenced fun _ => True := fun _ _ _ _ _ => trivial

namespace Carries

theorem of_kept (h : ∀ p ∈ g.productions, ∃ p' ∈ g'.productions, p'.rule = p.rule) :
    g.Carries (fun _ => True) g' :=
  ⟨fun p hp _ => h p hp, fun _ _ _ _ _ => trivial⟩

variable (h : g.Carries live g')

include h

theorem mem_nonterminals (hlive : live n) (hn : n ∈ g.nonterminals) : n ∈ g'.nonterminals := by
  obtain ⟨p, hp, rfl⟩ := Grammar.mem_nonterminals.mp hn
  obtain ⟨p', hp', hrule⟩ := h.rules p hp hlive
  exact Grammar.mem_nonterminals.mpr ⟨p', hp', (Prod.mk.inj hrule).1⟩

end Carries

namespace Shares

variable (h : g.Shares live g')

include h

theorem symm : g'.Shares live g := ⟨h.start_eq.symm, h.goal, h.back, h.forth⟩

theorem goal_eq : g.goal = g'.goal := by rw [Grammar.goal, Grammar.goal, h.start_eq]

end Shares

namespace Enlarges

/-- Rules for nonterminals out of reach may be put behind the others. -/
theorem of_append {more : List Production} (hstart : g.start = g'.start)
    (happend : g'.productions = g.productions ++ more) (hmore : ∀ p ∈ more, ¬ g.Reached p.lhs) :
    g.Enlarges g' where
  start_eq := hstart
  kept := fun p hp => ⟨p, happend ▸ List.mem_append_left _ hp, rfl⟩
  dead := by
    intro p hp hreached
    rw [happend] at hp
    rcases List.mem_append.mp hp with hp | hp
    · exact ⟨p, hp, rfl⟩
    · exact absurd hreached (hmore p hp)

variable (h : g.Enlarges g')

include h

theorem carries : g.Carries (fun _ => True) g' := .of_kept h.kept

/-- Out of reach in the smaller grammar is out of reach in the larger one. -/
theorem shares : g.Shares g.Live g' where
  start_eq := h.start_eq
  goal := Or.inl rfl
  forth := ⟨fun p hp _ => h.kept p hp, fun _ hp hlive _ hn => hlive.of_mem_rhs hp hn⟩
  back := by
    have hrule : ∀ p' ∈ g'.productions, g.Live p'.lhs → ∃ p ∈ g.productions, p.rule = p'.rule := by
      intro p' hp' hlive
      rcases hlive with hgoal | hreached
      · refine ⟨g.goal, g.goal_mem, ?_⟩
        rw [eq_goal_of_lhs hp' hgoal, Grammar.goal, Grammar.goal, h.start_eq]
      · exact h.dead p' hp' hreached
    refine ⟨hrule, ?_⟩
    intro p' hp' hlive n hn
    obtain ⟨p, hp, heq⟩ := hrule p' hp' hlive
    obtain ⟨hlhs, hrhs⟩ := Prod.mk.inj heq
    exact Live.of_mem_rhs (hlhs ▸ hlive) hp (hrhs ▸ hn)

end Enlarges

end Slr.Grammar
