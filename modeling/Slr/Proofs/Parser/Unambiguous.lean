import Slr.Proofs.Derivation.Replay
import Slr.Proofs.Parser.Halting

/-! # A grammar with a table is unambiguous

A parse over the tokens of a sentence makes the operations of each of the
sentence's trees. It makes one sequence of moves only, so the trees are built by
the same operations, and are one. Ambiguity is therefore a conflict in some state,
whichever way it comes about. -/

namespace Slr

open ParseTree StackParser

variable {g : Grammar} {t : Table} {T U : ParseTree}

/-- Some sentence has two trees from the start symbol: two trees that differ, over
the same tokens. -/
def Grammar.Ambiguous (g : Grammar) : Prop :=
  ∃ T U : ParseTree, T.Valid g ∧ U.Valid g ∧ T.root = .nonterminal g.start ∧
    U.root = .nonterminal g.start ∧ T.tokens = U.tokens ∧ T ≠ U

/-- All trees of a sentence are built by the operations of its parse. -/
theorem operations_eq_of_tokens (ht : g.table = .ok t) (hT : T.Valid g) (hU : U.Valid g)
    (hTroot : T.root = .nonterminal g.start) (hUroot : U.root = .nonterminal g.start)
    (htokens : T.tokens = U.tokens) : T.operations = U.operations := by
  have hr := Grammar.table_renders ht
  obtain ⟨s, e, hfeed, -⟩ := exists_session hT hTroot
  obtain ⟨s₁, hends₁, htrace₁⟩ := sentence_ends hr hT hTroot (eval_default T) hfeed
  obtain ⟨s₂, hends₂, htrace₂⟩ := sentence_ends hr hU hUroot (eval_default U) (htokens ▸ hfeed)
  obtain rfl : s₁ = s₂ := congrArg Prod.snd (hends₁.unique hends₂)
  rw [htrace₁] at htrace₂
  simpa using htrace₂

/-- The table of an ambiguous grammar has conflicts. -/
theorem conflicts_of_ambiguous (h : g.Ambiguous) : ∃ found, g.table = .error (.conflicts found) := by
  obtain ⟨T, U, hT, hU, hTroot, hUroot, htokens, hne⟩ := h
  refine (Grammar.table_ok_or_conflicts g).resolve_left ?_
  intro hok
  obtain ⟨t, ht⟩ := hok
  have hops := operations_eq_of_tokens ht hT hU hTroot hUroot htokens
  exact hne (eq_of_operations hT hU hops htokens)

/-- Words that are joined in any way. -/
def joining : Grammar where
  start := "words"
  productions :=
    [.goal "words", ⟨1, "words", [.nonterminal "words", .nonterminal "words"]⟩,
      ⟨2, "words", [.terminal "word"]⟩]
  wellFormed :=
    ⟨rfl, by decide, by decide, by decide, by simp [Production.goal],
      by simp [Production.goal, endName, goalName]⟩

theorem joining_ambiguous : joining.Ambiguous := by
  let word : ParseTree := .node ⟨2, "words", [.terminal "word"]⟩ [.leaf ⟨"word", .none, 0, 0⟩]
  let join (l r : ParseTree) : ParseTree :=
    .node ⟨1, "words", [.nonterminal "words", .nonterminal "words"]⟩ [l, r]
  have hword : word.Valid joining := .node (by decide) rfl (by simp [Valid.leaf])
  have hjoin {l r : ParseTree} (hl : l.Valid joining) (hr : r.Valid joining)
      (hroots : [l, r].map root = [.nonterminal "words", .nonterminal "words"]) :
      (join l r).Valid joining :=
    .node (by decide) hroots (by simp [hl, hr])
  refine ⟨join (join word word) word, join word (join word word),
    hjoin (hjoin hword hword rfl) hword rfl, hjoin hword (hjoin hword hword rfl) rfl, rfl, rfl, rfl,
    by simp [join, word]⟩

theorem joining_conflicts :
    joining.Ambiguous ∧ ∃ found, joining.table = .error (.conflicts found) :=
  ⟨joining_ambiguous, conflicts_of_ambiguous joining_ambiguous⟩

end Slr
