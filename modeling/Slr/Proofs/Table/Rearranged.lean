import Slr.Proofs.Grammar.Rearranged
import Slr.Proofs.Table.Shared

/-! # The order of productions does not matter to the table

Rearranged grammars share all their rules, and what may stand behind a nonterminal
depends on the rules only. -/

namespace Slr

theorem Grammar.Rearranges.sameOutcome {g g' : Grammar} (h : g.Rearranges g') :
    SameOutcome g.table g'.table :=
  h.shares.sameOutcome fun _ hlive _ =>
    ⟨h.carries.follows g.fenced_all hlive, h.symm.carries.follows g'.fenced_all hlive⟩

/-- The order in which productions are listed does not matter. Drafts that make a grammar
make one in any other order too, and both grammars have tables with the same moves,
gotos and depths, or both have the same conflicts, each with the same votes. -/
theorem AttributedGrammar.sameOutcome_of_perm {drafts drafts' : List Draft} {start : Candidate}
    {a : AttributedGrammar} (hperm : drafts.Perm drafts') (h : ofDrafts drafts start = .ok a) :
    ∃ a', ofDrafts drafts' start = .ok a' ∧ SameOutcome a.grammar.table a'.grammar.table := by
  obtain ⟨a', ha', hrearranges⟩ := rearranges_of_perm hperm h
  exact ⟨a', ha', hrearranges.sameOutcome⟩

def wrapDraft : Draft where
  lhs := .symbol (.symbol (.nonterminal "S"))
  rhs := [.symbol (.symbol (.terminal "a")), .symbol (.symbol (.nonterminal "S"))]
  action := none

def stopDraft : Draft where
  lhs := .symbol (.symbol (.nonterminal "S"))
  rhs := []
  action := none

/-- `S -> a S` and `S -> <empty>`, in both orders. -/
theorem AttributedGrammar.sameOutcome_swap :
    ∃ a, ofDrafts [wrapDraft, stopDraft] (.value (.str "S")) = .ok a ∧
      ∃ a', ofDrafts [stopDraft, wrapDraft] (.value (.str "S")) = .ok a' ∧
        SameOutcome a.grammar.table a'.grammar.table := by
  have hshape : Draft.shape [wrapDraft, stopDraft] (.value (.str "S")) =
      .ok ("S", [(goalName, [.nonterminal "S", .terminal endName]),
        ("S", [.terminal "a", .nonterminal "S"]), ("S", [])]) :=
    Draft.shape_eq_ok_iff.mpr ⟨_, rfl, rfl, rfl, by decide⟩
  obtain ⟨a, ha, -⟩ := exists_ofDrafts hshape
  exact ⟨a, ha, sameOutcome_of_perm (.swap _ _ _) ha⟩

end Slr
