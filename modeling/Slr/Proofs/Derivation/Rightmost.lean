import Mathlib.Data.List.Induction
import Slr.Proofs.Derivation.Tree

/-! # Trees as rightmost derivations

The reductions of a tree in the order in which a parser makes them are a
rightmost derivation of its word from its root, read backwards. -/

namespace Slr

open ParseTree

/-- The productions, in order, rewrite the last nonterminal of each form in turn. -/
inductive Rightmost (g : Grammar) : List Symbol → List Production → List Symbol → Prop
  | refl (xs : List Symbol) : Rightmost g xs [] xs
  | step {p : Production} {ps : List Production} {xs ys : List Symbol} {ws : List String}
      (hp : p ∈ g.productions)
      (rest : Rightmost g (xs ++ p.rhs ++ ws.map .terminal) ps ys) :
      Rightmost g (xs ++ .nonterminal p.lhs :: ws.map .terminal) (p :: ps) ys

/-- The words of a forest, one behind the other. -/
def forestKinds (ts : List ParseTree) : List String := (tokensOf ts).map Token.kind

theorem reductions_append (as bs : List Operation) :
    reductions (as ++ bs) = reductions as ++ reductions bs := by
  simp [reductions]

/-- What rewriting the root of a tree, with terminals alone behind it, adds in
front of a derivation that goes on from the tree's word. -/
def Unfolds (g : Grammar) (t : ParseTree) : Prop :=
  ∀ (xs : List Symbol) (ws : List String) (ps : List Production) (ys : List Symbol),
    Rightmost g (xs ++ (t.kinds ++ ws).map .terminal) ps ys →
      Rightmost g (xs ++ t.root :: ws.map .terminal) ((reductions t.operations).reverse ++ ps) ys

theorem forest_unfolds {g : Grammar} {ts : List ParseTree} (h : ∀ t ∈ ts, Unfolds g t)
    {xs : List Symbol} {ws : List String} {ps : List Production} {ys : List Symbol}
    (rest : Rightmost g (xs ++ (forestKinds ts ++ ws).map .terminal) ps ys) :
    Rightmost g (xs ++ ts.map root ++ ws.map .terminal)
      ((reductions (operationsOf ts)).reverse ++ ps) ys := by
  -- the last tree is unfolded first, so the induction takes trees off the end
  induction ts using List.reverseRecOn generalizing ws ps with
  | nil => simpa [forestKinds, tokensOf, operationsOf, reductions] using rest
  | append_singleton ts t ih =>
    have hts : Rightmost g (xs ++ ts.map root ++ (t.kinds ++ ws).map .terminal)
        ((reductions (operationsOf ts)).reverse ++ ps) ys := by
      apply ih (fun u hu => h u (List.mem_append_left _ hu))
      simpa [forestKinds, tokensOf_append, kinds] using rest
    have ht := h t (by simp) _ _ _ _ hts
    simpa [operationsOf_append, reductions_append] using ht

theorem tree_unfolds {g : Grammar} {t : ParseTree} (ht : t.Valid g) : Unfolds g t := by
  induction t using rec_children with
  | leaf token =>
    intro xs ws ps ys rest
    simpa [kinds, tokens, operations, reductions, root] using rest
  | node p children ih =>
    obtain ⟨hp, hroots, hvalid⟩ := ht.of_node
    intro xs ws ps ys rest
    have hforest : Rightmost g (xs ++ p.rhs ++ ws.map .terminal)
        ((reductions (operationsOf children)).reverse ++ ps) ys := by
      rw [← hroots]
      exact forest_unfolds (fun c hc => ih c hc (hvalid c hc)) rest
    simpa [operations, reductions_append, reductions, root] using Rightmost.step hp hforest

/-- A valid tree gives a rightmost derivation of its word from its root. -/
theorem rightmost_of_tree {g : Grammar} {t : ParseTree} (ht : t.Valid g) :
    Rightmost g [t.root] (reductions t.operations).reverse (t.kinds.map .terminal) := by
  have h := tree_unfolds ht [] [] [] _ (.refl _)
  simpa using h

end Slr
