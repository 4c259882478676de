import Slr.Lookahead.First
import Slr.Proofs.Association
import Slr.Proofs.Derivation.Tree
import Slr.Proofs.Grammar.Symbols
import Slr.Proofs.Reachability

/-! # Vanishing nonterminals and FIRST, against derivation trees

The rounds for vanishing nonterminals end in a set that another round leaves as
it is, so the root of every tree without tokens vanishes. From there the
symbols at the left edge of a tree lead from its root to its first token. -/

namespace Slr

namespace Grammar

variable {g : Grammar} {n t : String} {known known' nullable : List String} {x : Symbol}
  {ts : List ParseTree}

/-! ## Rounds -/

theorem vanishes_mono (h : known ⊆ known') (x : Symbol) (hx : vanishes known x = true) :
    vanishes known' x = true := by
  cases x with
  | terminal t => cases hx
  | nonterminal n => simpa [vanishes] using h (by simpa [vanishes] using hx)

theorem nullableRound_sublist (h : known ⊆ known') :
    List.Sublist (g.nullableRound known) (g.nullableRound known') := by
  apply List.monotone_filter_right
  intro n hn
  simp only [List.any_eq_true, List.all_eq_true] at hn ⊢
  obtain ⟨p, hp, hall⟩ := hn
  exact ⟨p, hp, fun x hx => vanishes_mono h x (hall x hx)⟩

/-- The nonterminals that so many rounds have found. -/
def nullableAfter (g : Grammar) (rounds : Nat) : List String :=
  Nat.repeat g.nullableRound rounds []

theorem nullableAfter_sublist (k : Nat) :
    List.Sublist (g.nullableAfter k) (g.nullableAfter (k + 1)) := by
  induction k with
  | zero => exact List.nil_sublist _
  | succ k ih => exact nullableRound_sublist ih.subset

/-- Each round finds one more nonterminal, or there are no more to be found. -/
theorem nullableAfter_stable_or (k : Nat) :
    g.nullableRound (g.nullableAfter k) = g.nullableAfter k ∨ k ≤ (g.nullableAfter k).length := by
  induction k with
  | zero => exact Or.inr (Nat.zero_le _)
  | succ k ih =>
    have hstep : g.nullableAfter (k + 1) = g.nullableRound (g.nullableAfter k) := rfl
    have hsub := nullableAfter_sublist (g := g) k
    by_cases hlen : (g.nullableAfter k).length = (g.nullableAfter (k + 1)).length
    · have heq := hsub.eq_of_length hlen
      left
      rw [← heq, ← hstep]
      exact heq.symm
    · have hle := hsub.length_le
      rcases ih with ih | ih
      · exact absurd (congrArg List.length (hstep.trans ih)).symm hlen
      · exact Or.inr (by omega)

theorem nullable_closed : g.nullableRound g.nullable = g.nullable := by
  have hsub : List.Sublist g.nullable (g.nullableRound g.nullable) := nullableAfter_sublist _
  rcases nullableAfter_stable_or (g := g) g.nonterminals.length with h | h
  · exact h
  · have hle : (g.nullableRound g.nullable).length ≤ g.nonterminals.length :=
      List.length_filter_le _ _
    have hge : g.nonterminals.length ≤ g.nullable.length := h
    exact (hsub.eq_of_length_le (by omega)).symm

/-- A nonterminal vanishes once all symbols of one of its productions do. -/
theorem mem_nullable_of_production {p : Production} (hp : p ∈ g.productions)
    (hall : ∀ x ∈ p.rhs, vanishes g.nullable x = true) : p.lhs ∈ g.nullable := by
  rw [← nullable_closed]
  refine List.mem_filter.mpr ⟨mem_nonterminals.mpr ⟨p, hp, rfl⟩, ?_⟩
  simp only [List.any_eq_true, List.all_eq_true]
  exact ⟨p, mem_productionsFor.mpr ⟨hp, rfl⟩, hall⟩

/-! ## Trees without tokens, and first tokens -/

theorem tokens_eq_nil_of_mem {c : ParseTree} (h : ParseTree.tokensOf ts = []) (hc : c ∈ ts) :
    c.tokens = [] := by
  induction ts with
  | nil => cases hc
  | cons t ts ih =>
    obtain ⟨ht, hts⟩ := List.append_eq_nil_iff.mp h
    rcases List.mem_cons.mp hc with rfl | hc
    · exact ht
    · exact ih hts hc

/-- The root of a tree without tokens vanishes. -/
theorem vanishes_root {t : ParseTree} (ht : t.Valid g) (hnil : t.tokens = []) :
    vanishes g.nullable t.root = true := by
  induction t using ParseTree.rec_children with
  | leaf token => simp [ParseTree.tokens] at hnil
  | node p children ih =>
    obtain ⟨hp, hroots, hvalid⟩ := ht.of_node
    suffices h : p.lhs ∈ g.nullable by simpa [vanishes, ParseTree.root] using h
    apply mem_nullable_of_production hp
    intro x hx
    rw [← hroots] at hx
    obtain ⟨c, hc, rfl⟩ := List.mem_map.mp hx
    exact ih c hc (hvalid c hc) (tokens_eq_nil_of_mem hnil hc)

theorem openings_subset {w : List Symbol} : openings nullable w ⊆ w := by
  induction w with
  | nil => simp [openings]
  | cons x xs ih =>
    unfold openings
    split
    · exact List.cons_subset_cons x ih
    · simp

/-- The first token of a forest belongs to a tree whose root opens the word of roots. -/
theorem exists_opening {token : Token} {rest : List Token} (hts : ∀ c ∈ ts, c.Valid g)
    (h : ParseTree.tokensOf ts = token :: rest) :
    ∃ c ∈ ts, c.root ∈ openings g.nullable (ts.map ParseTree.root) ∧
      ∃ r, c.tokens = token :: r := by
  induction ts with
  | nil => cases h
  | cons t ts ih =>
    simp only [List.map_cons, openings]
    cases htok : t.tokens with
    | nil =>
      simp only [ParseTree.tokensOf, htok, List.nil_append] at h
      obtain ⟨c, hc, hroot, hr⟩ := ih (fun c hc => hts c (by simp [hc])) h
      have hvan := vanishes_root (hts t (by simp)) htok
      exact ⟨c, by simp [hc], by simp [hvan, hroot], hr⟩
    | cons u us =>
      simp only [ParseTree.tokensOf, htok, List.cons_append, List.cons.injEq] at h
      refine ⟨t, by simp, ?_, us, by rw [htok, h.1]⟩
      split <;> simp

/-- Corners lead from the root of a tree to its first token. -/
theorem path_to_first {t : ParseTree} {token : Token} {rest : List Token} (ht : t.Valid g)
    (h : t.tokens = token :: rest) :
    Reachability.Path (g.corners g.nullable) t.root (.terminal token.kind) := by
  induction t using ParseTree.rec_children generalizing rest with
  | leaf u =>
    simp only [ParseTree.tokens, List.cons.injEq] at h
    rw [ParseTree.root, h.1]
    exact .refl _
  | node p children ih =>
    obtain ⟨hp, hroots, hvalid⟩ := ht.of_node
    obtain ⟨c, hc, hopen, r, hr⟩ := exists_opening hvalid h
    refine Reachability.Path.head ?_ (ih c hc (hvalid c hc) hr)
    rw [hroots] at hopen
    exact List.mem_flatMap.mpr ⟨p, mem_productionsFor.mpr ⟨hp, rfl⟩, hopen⟩

/-! ## FIRST -/

theorem corners_mem_alphabet (hx : x ∈ g.alphabet) {y : Symbol} (hy : y ∈ g.corners nullable x) :
    y ∈ g.alphabet := by
  cases x with
  | terminal t => cases hy
  | nonterminal n =>
    obtain ⟨p, hp, hopen⟩ := List.mem_flatMap.mp hy
    exact mem_alphabet_of_mem_rhs (mem_productionsFor.mp hp).1 (openings_subset hopen)

/-- Corners lead to symbols of the grammar. -/
theorem mem_alphabet_of_path {y : Symbol} (hx : x ∈ g.alphabet)
    (path : Reachability.Path (g.corners nullable) x y) : y ∈ g.alphabet := by
  induction path with
  | refl => exact hx
  | tail _ edge ih => exact corners_mem_alphabet ih edge

theorem mem_firstOf_iff (hx : x ∈ g.alphabet) :
    t ∈ g.firstOf nullable x ↔
      t ∈ g.terminals ∧ Reachability.Path (g.corners nullable) x (.terminal t) := by
  have hedges : ∀ a ∈ g.alphabet, ∀ b ∈ g.corners nullable a, b ∈ g.alphabet :=
    fun a ha b hb => corners_mem_alphabet ha hb
  have hseeds : ∀ a ∈ [x], a ∈ g.alphabet := by simpa using hx
  simp [firstOf, Reachability.mem_reach_iff hedges hseeds (Nat.le_refl _)]

theorem first?_eq (hx : x ∈ g.alphabet) :
    (FirstSets.ofGrammar g).first? x = some (g.firstOf g.nullable x) :=
  Association.lookup_map_self _ hx

end Grammar

end Slr
