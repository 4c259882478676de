import Slr.Proofs.Derivation.Rightmost
import Slr.Proofs.Derivation.Words

/-! # Derivations of words of terminals are forests

A derivation that ends with terminals alone can be undone from its end, and each step that
is undone puts a node over some of the trees. So a word of symbols derives just the words
of terminals that forests over it stand over. -/

namespace Slr

open ParseTree

variable {g : Grammar} {v w xs ys : List Symbol} {word : List String} {forest : List ParseTree}
  {T : ParseTree}

/-- Trees for a word of symbols, over a word of terminals. -/
structure Grammar.Over (g : Grammar) (xs : List Symbol) (word : List String)
    (forest : List ParseTree) : Prop where
  valid : ∀ T ∈ forest, T.Valid g
  roots : forest.map root = xs
  kinds : forestKinds forest = word

@[simp] theorem forestKinds_append (ts us : List ParseTree) :
    forestKinds (ts ++ us) = forestKinds ts ++ forestKinds us := by
  simp [forestKinds, tokensOf_append]

@[simp] theorem forestKinds_cons (t : ParseTree) (ts : List ParseTree) :
    forestKinds (t :: ts) = t.kinds ++ forestKinds ts := by
  simp [forestKinds, tokensOf, ParseTree.kinds]

theorem kinds_node_eq (p : Production) (children : List ParseTree) :
    (node p children).kinds = forestKinds children := rfl

namespace Grammar

theorem Over.terminals (g : Grammar) (word : List String) :
    ∃ forest, g.Over (word.map .terminal) word forest := by
  induction word with
  | nil => exact ⟨[], by simp, rfl, rfl⟩
  | cons k word ih =>
    obtain ⟨forest, hvalid, hroots, hkinds⟩ := ih
    refine ⟨.leaf ⟨k, .none, 0, 0⟩ :: forest, ?_, by simp [root, hroots], ?_⟩
    · intro T hT
      rcases List.mem_cons.mp hT with rfl | hT
      · exact .leaf _
      · exact hvalid T hT
    · rw [forestKinds_cons, hkinds]
      rfl

/-- A step is undone by a node over the trees of the right hand side. -/
theorem Over.undo (h : g.Over w word forest) (step : g.Rewrites v w) :
    ∃ forest, g.Over v word forest := by
  obtain ⟨hvalid, hroots, hkinds⟩ := h
  cases step with
  | @rule p hp xs ys =>
    obtain ⟨front, after, rfl, hfront, rfl⟩ := List.map_eq_append_iff.mp hroots
    obtain ⟨before, children, rfl, rfl, hchildren⟩ := List.map_eq_append_iff.mp hfront
    refine ⟨before ++ node p children :: after, ?_, by simp [root], ?_⟩
    · intro T hT
      rcases List.mem_append.mp hT with hT | hT
      · exact hvalid T (by simp [hT])
      · rcases List.mem_cons.mp hT with rfl | hT
        · exact .node hp hchildren fun c hc => hvalid c (by simp [hc])
        · exact hvalid T (by simp [hT])
    · simpa [kinds_node_eq] using hkinds

theorem exists_over (h : g.Derives xs (word.map .terminal)) : ∃ forest, g.Over xs word forest := by
  induction h using Relation.ReflTransGen.head_induction_on with
  | refl => exact Over.terminals g word
  | head step _ ih =>
    obtain ⟨forest, hforest⟩ := ih
    exact hforest.undo step

theorem derives_of_forest (h : ∀ T ∈ forest, g.Derives [T.root] (T.kinds.map .terminal)) :
    g.Derives (forest.map root) ((forestKinds forest).map .terminal) := by
  induction forest with
  | nil => exact .refl
  | cons T forest ih =>
    have hT := h T List.mem_cons_self
    have hrest := ih fun U hU => h U (List.mem_cons_of_mem _ hU)
    simpa using hT.append hrest

/-- A tree derives its word from its root. -/
theorem derives_of_valid (hT : T.Valid g) : g.Derives [T.root] (T.kinds.map .terminal) := by
  induction T using rec_children with
  | leaf token => exact .refl
  | node p children ih =>
    obtain ⟨hp, hroots, hvalid⟩ := hT.of_node
    have hchildren := derives_of_forest fun c hc => ih c hc (hvalid c hc)
    rw [hroots] at hchildren
    exact (derives_rhs hp).trans hchildren

theorem Over.derives (h : g.Over xs word forest) : g.Derives xs (word.map .terminal) := by
  obtain ⟨hvalid, rfl, rfl⟩ := h
  exact derives_of_forest fun T hT => derives_of_valid (hvalid T hT)

end Grammar

end Slr
