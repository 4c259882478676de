import Slr.Proofs.Automaton.Viable
import Slr.Proofs.Derivation.Shape

/-! # Valid items lie on trees of sentences

If every nonterminal that derivations come to derives a word, whatever an item has
seen is the beginning of some tree from the start symbol: what the item still
expects is filled in with trees of any words, and so is what the items expect that
it came from. The operations that built the forest on a stack are therefore the
first operations of a sentence's tree. -/

namespace Slr

open ParseTree

variable {g : Grammar} {xs : List Symbol} {it : Item} {forest rest : List ParseTree}

/-- Operations that the tree of a sentence begins with. -/
def Grammar.Begins (g : Grammar) (ops : List Operation) : Prop :=
  ∃ T : ParseTree, T.Valid g ∧ T.root = .nonterminal g.start ∧ ops <+: T.operations

theorem Grammar.Begins.exists_sentence {ops : List Operation} (h : g.Begins ops) :
    ∃ word, g.Sentence word ∧ shifts ops <+: word := by
  obtain ⟨T, hT, hroot, more, hops⟩ := h
  exact ⟨T.kinds, ⟨T, hT, hroot, rfl⟩, shifts more, by
    rw [← shifts_append, hops, shifts_operations]⟩

/-- Trees for any symbols that derivations come to. -/
theorem Grammar.Grounded.exists_forest (hg : g.Grounded) (xs : List Symbol)
    (h : ∀ n, .nonterminal n ∈ xs → g.Reached n) :
    ∃ ts : List ParseTree, (∀ t ∈ ts, t.Valid g) ∧ ts.map root = xs := by
  induction xs with
  | nil => exact ⟨[], by simp, rfl⟩
  | cons x xs ih =>
    obtain ⟨ts, hts, hroots⟩ := ih fun n hn => h n (by simp [hn])
    obtain ⟨t, ht, hroot⟩ : ∃ t : ParseTree, t.Valid g ∧ t.root = x := by
      cases x with
      | terminal k => exact ⟨.leaf ⟨k, .none, 0, 0⟩, .leaf _, rfl⟩
      | nonterminal n => exact hg n (h n (by simp))
    exact ⟨t :: ts, by simpa using ⟨ht, hts⟩, by simp [hroot, hroots]⟩

/-- Derivations come to the nonterminals of a valid item's right hand side. -/
theorem ValidItem.reached (h : ValidItem g xs it) {n : String}
    (hn : .nonterminal n ∈ it.production.rhs) : g.Reached n := by
  induction h generalizing n with
  | goal =>
    obtain rfl : n = g.start := by simpa [Item.start, Grammar.goal, Production.goal] using hn
    exact .start
  | predict _ hnext hp ih => exact .part (ih (Item.next_mem_rhs hnext)) hp hn
  | advance _ _ _ hadv ih => exact ih ((Item.advance?_eq_some_iff.mp hadv).1 ▸ hn)

/-- What is still to come in an item, the end of the input apart. -/
def Item.ahead (it : Item) : List Symbol :=
  (it.production.rhs.drop it.dot).filter (· ≠ .terminal endName)

theorem Item.ahead_of_next {x : Symbol} {it' : Item} (hnext : it.next = some x)
    (hx : x ≠ .terminal endName) (hadv : it.advance? = some it') : it.ahead = x :: it'.ahead := by
  obtain ⟨hprod, hdot⟩ := Item.advance?_eq_some_iff.mp hadv
  rw [ahead, ahead, hprod, hdot, drop_eq_of_next hnext]
  simp [hx]

/-- A forest for what an item has seen, with one for what it expects, is the
beginning of a tree from the start symbol. -/
theorem ValidItem.begins (hg : g.Grounded) (h : ValidItem g xs it)
    (hforest : ∀ t ∈ forest, t.Valid g) (hseen : forest.map root = xs)
    (hrest : ∀ t ∈ rest, t.Valid g) (hahead : rest.map root = it.ahead) :
    g.Begins (operationsOf (forest.reverse ++ rest)) := by
  induction h generalizing forest rest with
  | goal =>
    obtain rfl := List.map_eq_nil_iff.mp hseen
    have hstart : (Item.start g.goal).ahead = [.nonterminal g.start] := by
      simp [Item.ahead, Grammar.goal, Production.goal, Item.start]
    rw [hstart] at hahead
    obtain ⟨T, rfl, hroot⟩ := List.map_eq_singleton_iff.mp hahead
    exact ⟨T, hrest T (by simp), hroot, by simp⟩
  | @predict xs it p h hnext hp ih =>
    have hne : p ≠ g.goal := by
      intro hgoal
      subst hgoal
      exact hg.start_ne_goalName
        (Grammar.start_eq_goalName_of_mem_rhs h.production_mem (Item.next_mem_rhs hnext))
    have hrhs : (Item.start p).ahead = p.rhs := by
      apply List.filter_eq_self.mpr
      intro x hx
      apply decide_eq_true
      intro hend
      exact hne (Grammar.eq_goal_of_end_mem hp (hend ▸ by simpa [Item.start] using hx))
    -- the new tree stands where the item expects it, with any trees behind it
    obtain ⟨it', hadv⟩ := Item.exists_advance hnext
    obtain ⟨hprod, -⟩ := Item.advance?_eq_some_iff.mp hadv
    obtain ⟨behind, hbehind, hroots⟩ := hg.exists_forest it'.ahead fun n hn => by
      have hmem := List.mem_of_mem_drop (List.mem_of_mem_filter hn)
      rw [hprod] at hmem
      exact h.reached hmem
    have hall : g.Begins (operationsOf (forest.reverse ++ .node p rest :: behind)) := by
      refine ih hforest hseen ?_ ?_
      · intro t ht
        rcases List.mem_cons.mp ht with rfl | ht
        · exact .node hp (hahead.trans hrhs) hrest
        · exact hbehind t ht
      · rw [Item.ahead_of_next hnext (by simp) hadv, List.map_cons, hroots]
        rfl
    obtain ⟨T, hT, hroot, hops⟩ := hall
    refine ⟨T, hT, hroot, List.IsPrefix.trans ?_ hops⟩
    simp [operationsOf_append, operationsOf, operations]
  | @advance xs it it' x h hnext hx hadv ih =>
    obtain ⟨t, forest', rfl, ht, rfl⟩ := List.map_eq_cons_iff.mp hseen
    have hall : g.Begins (operationsOf (forest'.reverse ++ t :: rest)) := by
      refine ih (fun u hu => hforest u (by simp [hu])) rfl ?_ ?_
      · intro u hu
        rcases List.mem_cons.mp hu with rfl | hu
        · exact hforest u (by simp)
        · exact hrest u hu
      · rw [Item.ahead_of_next hnext hx hadv, List.map_cons, ht, hahead]
    simpa using hall

/-- The forest over a way through the automaton is the beginning of a tree from
the start symbol. -/
theorem Automaton.Spells.begins (hg : g.Grounded) {qs : List Nat}
    (way : (Automaton.build g).Spells qs (forest.map root)) (hforest : ∀ t ∈ forest, t.Valid g) :
    g.Begins (operationsOf forest.reverse) := by
  have hc := Automaton.build_canonical g
  cases qs with
  | nil => cases way.length
  | cons q below =>
    obtain ⟨it, hit⟩ := hc.exists_item way
    have hvalid := (hc.mem_items_iff way).mp hit
    obtain ⟨rest, hrest, hahead⟩ := hg.exists_forest it.ahead fun n hn =>
      hvalid.reached (List.mem_of_mem_drop (List.mem_of_mem_filter hn))
    obtain ⟨T, hT, hroot, hops⟩ := hvalid.begins hg hforest rfl hrest hahead
    refine ⟨T, hT, hroot, List.IsPrefix.trans ?_ hops⟩
    simp [operationsOf_append]

end Slr
