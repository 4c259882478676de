import Mathlib.Logic.Relation
import Slr.Proofs.Grammar.Symbols

/-! # Derivations of words

A step puts the right hand side of a production in the place of its left hand
side, anywhere in a word of symbols; a derivation is any number of steps. Nothing
is asked of the words: a derivation may end with nonterminals that derive no word
of terminals. -/

namespace Slr.Grammar

inductive Rewrites (g : Grammar) : List Symbol → List Symbol → Prop
  | rule {p : Production} (hp : p ∈ g.productions) (xs ys : List Symbol) :
      Rewrites g (xs ++ .nonterminal p.lhs :: ys) (xs ++ p.rhs ++ ys)

abbrev Derives (g : Grammar) : List Symbol → List Symbol → Prop :=
  Relation.ReflTransGen g.Rewrites

variable {g : Grammar} {p : Production} {u u' v w xs ys zs : List Symbol} {x : Symbol}

theorem Rewrites.surround (h : g.Rewrites v w) (xs ys : List Symbol) :
    g.Rewrites (xs ++ v ++ ys) (xs ++ w ++ ys) := by
  cases h with
  | rule hp as bs => simpa using Rewrites.rule hp (xs ++ as) (bs ++ ys)

/-- A part of a word derives what it derives alone. -/
theorem Derives.surround (h : g.Derives v w) (xs ys : List Symbol) :
    g.Derives (xs ++ v ++ ys) (xs ++ w ++ ys) :=
  h.lift (fun v => xs ++ v ++ ys) fun _ _ step => step.surround xs ys

theorem Derives.append (hu : g.Derives u u') (h : g.Derives v w) :
    g.Derives (u ++ v) (u' ++ w) := by
  have hleft : g.Derives (u ++ v) (u' ++ v) := by simpa using hu.surround [] v
  have hright : g.Derives (u' ++ v) (u' ++ w) := by simpa using h.surround u' []
  exact hleft.trans hright

theorem derives_rhs (hp : p ∈ g.productions) : g.Derives [.nonterminal p.lhs] p.rhs :=
  .single (by simpa using Rewrites.rule hp [] [])

/-- What is behind a symbol of a right hand side may be derived further. -/
theorem derives_behind (hp : p ∈ g.productions) (hrhs : p.rhs = xs ++ x :: ys)
    (h : g.Derives ys zs) : g.Derives [.nonterminal p.lhs] (xs ++ x :: zs) := by
  have hrest := h.surround (xs ++ [x]) []
  refine (derives_rhs hp).trans ?_
  rw [hrhs]
  simpa using hrest

/-- Symbols that vanish one by one vanish together. -/
theorem derives_nil (h : ∀ x ∈ w, g.Derives [x] []) : g.Derives w [] := by
  induction w with
  | nil => exact .refl
  | cons x w ih =>
    have hx : g.Derives [x] [] := h x (by simp)
    exact hx.append (ih fun y hy => h y (by simp [hy]))

/-- A derivation keeps to the symbols of the grammar. -/
theorem Derives.mem_alphabet (h : g.Derives v w) (hv : ∀ x ∈ v, x ∈ g.alphabet) :
    ∀ x ∈ w, x ∈ g.alphabet := by
  induction h with
  | refl => exact hv
  | tail _ step ih =>
    cases step with
    | rule hp xs ys =>
      intro x hx
      simp only [List.mem_append] at hx
      rcases hx with (hx | hx) | hx
      · exact ih x (by simp [hx])
      · exact mem_alphabet_of_mem_rhs hp hx
      · exact ih x (by simp [hx])

end Slr.Grammar
