import Slr.Grammar.Basic
import Slr.Proofs.Association
import Slr.Proofs.Reachability

/-! # What a well-formed grammar says about its symbols

Every nonterminal of a right hand side has a production, only the goal
production mentions the end of the input, and no name is both a terminal and a
nonterminal. The stages behind the grammar use these facts and not the fields
of `WellFormed`. Symbols are listed once each, and names in their order. -/

namespace Slr

theorem sortNames_nodup (names : List String) : (sortNames names).Nodup :=
  (List.mergeSort_perm _ _).nodup_iff.mpr (Reachability.eraseDups_nodup names)

/-- Sorted names stand in strict order. -/
theorem sortNames_pairwise (names : List String) : (sortNames names).Pairwise (· < ·) := by
  have hle : (sortNames names).Pairwise fun a b => decide (a ≤ b) = true :=
    List.pairwise_mergeSort (fun a b c hab hbc => by
      simp only [decide_eq_true_eq] at hab hbc ⊢
      exact String.le_trans hab hbc) (fun a b => by
      simpa using String.le_total a b) _
  refine (hle.and (sortNames_nodup names)).imp ?_
  intro a b h
  refine String.not_le.mp ?_
  intro hle
  exact h.2 (String.le_antisymm (by simpa using h.1) hle)

namespace Grammar

variable {g : Grammar} {p : Production} {n t : String} {x : Symbol}

theorem mem_productionsFor : p ∈ g.productionsFor n ↔ p ∈ g.productions ∧ p.lhs = n := by
  simp [productionsFor]

theorem mem_nonterminals : n ∈ g.nonterminals ↔ ∃ p ∈ g.productions, p.lhs = n := by
  simp [nonterminals, mem_sortNames]

theorem mem_terminals : t ∈ g.terminals ↔ ∃ p ∈ g.productions, .terminal t ∈ p.rhs := by
  simp only [terminals, mem_sortNames, List.mem_flatMap, List.mem_filterMap]
  constructor
  · intro h
    obtain ⟨p, hp, x, hx, hxt⟩ := h
    cases x with
    | terminal s =>
      cases hxt
      exact ⟨p, hp, hx⟩
    | nonterminal s => cases hxt
  · intro h
    obtain ⟨p, hp, hx⟩ := h
    exact ⟨p, hp, .terminal t, hx, rfl⟩

theorem terminal_mem_alphabet : .terminal t ∈ g.alphabet ↔ t ∈ g.terminals := by
  simp [alphabet]

theorem nonterminal_mem_alphabet : .nonterminal n ∈ g.alphabet ↔ n ∈ g.nonterminals := by
  simp [alphabet]

/-- A nonterminal of a right hand side has productions of its own. -/
theorem defined_of_mem_rhs (hp : p ∈ g.productions) (hn : .nonterminal n ∈ p.rhs) :
    n ∈ g.nonterminals := by
  obtain ⟨r, hr, hlhs⟩ := List.mem_map.mp (g.wellFormed.defined p hp n hn)
  exact mem_nonterminals.mpr ⟨r, hr, hlhs⟩

theorem mem_alphabet_of_mem_rhs (hp : p ∈ g.productions) (hx : x ∈ p.rhs) : x ∈ g.alphabet := by
  cases x with
  | terminal t => exact terminal_mem_alphabet.mpr (mem_terminals.mpr ⟨p, hp, hx⟩)
  | nonterminal n => exact nonterminal_mem_alphabet.mpr (defined_of_mem_rhs hp hx)

/-- The productions behind the goal mention no reserved name. -/
theorem goal_or_unreserved (hp : p ∈ g.productions) :
    p = g.goal ∨ (isReserved p.lhs = false ∧ ∀ x ∈ p.rhs, isReserved x.name = false) := by
  have hfirst := g.wellFormed.goal_first
  have hrest := g.wellFormed.unreserved
  cases hps : g.productions with
  | nil => simp [hps] at hp
  | cons r rs =>
    rw [hps] at hp hfirst hrest
    simp only [List.head?_cons, Option.some.injEq] at hfirst
    rcases List.mem_cons.mp hp with rfl | hp
    · exact Or.inl hfirst
    · exact Or.inr (hrest p hp)

theorem start_mem_nonterminals (g : Grammar) : g.start ∈ g.nonterminals :=
  defined_of_mem_rhs g.goal_mem (by simp [goal, Production.goal])

theorem eq_goal_of_lhs (hp : p ∈ g.productions) (hlhs : p.lhs = goalName) : p = g.goal := by
  rcases goal_or_unreserved hp with h | ⟨h, -⟩
  · exact h
  · rw [hlhs] at h
    exact absurd h (by decide)

/-- Only the goal production mentions the end of the input. -/
theorem eq_goal_of_end_mem (hp : p ∈ g.productions) (hend : .terminal endName ∈ p.rhs) :
    p = g.goal := by
  rcases goal_or_unreserved hp with h | ⟨-, h⟩
  · exact h
  · exact absurd (h _ hend) (by decide)

/-- The goal stands on a right hand side only if it is the start symbol itself. -/
theorem start_eq_goalName_of_mem_rhs (hp : p ∈ g.productions)
    (hgoal : .nonterminal goalName ∈ p.rhs) : g.start = goalName := by
  rcases goal_or_unreserved hp with rfl | ⟨-, h⟩
  · simpa [goal, Production.goal, eq_comm] using hgoal
  · exact absurd (h _ hgoal) (by decide)

/-- The alphabet has no symbol twice. -/
theorem alphabet_nodup (g : Grammar) : g.alphabet.Nodup := by
  have hterminals : (g.terminals.map Symbol.terminal).Nodup :=
    List.Pairwise.map _ (fun _ _ hne h => hne (Symbol.terminal.inj h)) (sortNames_nodup _)
  have hnonterminals : (g.nonterminals.map Symbol.nonterminal).Nodup :=
    List.Pairwise.map _ (fun _ _ hne h => hne (Symbol.nonterminal.inj h)) (sortNames_nodup _)
  refine (List.mergeSort_perm _ _).nodup_iff.mpr ?_
  refine List.nodup_append.mpr ⟨hterminals, hnonterminals, ?_⟩
  intro x hx y hy hxy
  obtain ⟨a, -, rfl⟩ := List.mem_map.mp hx
  obtain ⟨b, -, rfl⟩ := List.mem_map.mp hy
  cases hxy

/-- No name is that of two symbols. -/
theorem eq_of_name {y : Symbol} (hx : x ∈ g.alphabet) (hy : y ∈ g.alphabet)
    (h : x.name = y.name) : x = y := by
  have hapart {t : String} (ht : t ∈ g.terminals) (hn : t ∈ g.nonterminals) : False := by
    obtain ⟨p, hp, hrhs⟩ := mem_terminals.mp ht
    exact g.wellFormed.apart p hp t hrhs (List.mem_map.mpr (mem_nonterminals.mp hn))
  cases x with
  | terminal t =>
    cases y with
    | terminal u => rw [show t = u from h]
    | nonterminal n =>
      obtain rfl : t = n := h
      exact (hapart (terminal_mem_alphabet.mp hx) (nonterminal_mem_alphabet.mp hy)).elim
  | nonterminal n =>
    cases y with
    | terminal t =>
      obtain rfl : n = t := h
      exact (hapart (terminal_mem_alphabet.mp hy) (nonterminal_mem_alphabet.mp hx)).elim
    | nonterminal m => rw [show n = m from h]

/-- The alphabet stands in strict order of names. -/
theorem alphabet_pairwise (g : Grammar) : g.alphabet.Pairwise fun x y => x.name < y.name := by
  have hle : g.alphabet.Pairwise fun x y => decide (x.name ≤ y.name) = true :=
    List.pairwise_mergeSort (fun x y z hxy hyz => by
      simp only [decide_eq_true_eq] at hxy hyz ⊢
      exact String.le_trans hxy hyz) (fun x y => by
      simpa using String.le_total x.name y.name) _
  refine (hle.and g.alphabet_nodup).imp_of_mem ?_
  intro x y hx hy h
  refine String.not_le.mp ?_
  intro hge
  exact h.2 (eq_of_name hx hy (String.le_antisymm (by simpa using h.1) hge))

/-- A production stands at its index. -/
theorem getElem?_index (hp : p ∈ g.productions) : g.productions[p.index]? = some p := by
  obtain ⟨i, hi, rfl⟩ := List.getElem_of_mem hp
  have hindex : (g.productions.map Production.index)[i]? = (List.range g.productions.length)[i]? := by
    rw [g.wellFormed.index_eq]
  rw [List.getElem?_map, List.getElem?_eq_getElem hi, List.getElem?_range hi] at hindex
  rw [show g.productions[i].index = i from Option.some.inj hindex, List.getElem?_eq_getElem hi]

theorem eq_of_index {p' : Production} (hp : p ∈ g.productions) (hp' : p' ∈ g.productions)
    (h : p.index = p'.index) : p = p' := by
  have hget := getElem?_index hp
  rw [h, getElem?_index hp'] at hget
  exact (Option.some.inj hget).symm

/-- A symbol's name finds its place in the alphabet. -/
theorem symbolKey?_eq {k : Nat} (h : g.alphabet[k]? = some x) : g.symbolKey? x.name = some k := by
  have hmem {i : Nat} : (x.name, i) ∈ g.symbolKeys ↔ g.alphabet[i]? = some x := by
    rw [symbolKeys, List.mem_mapIdx]
    constructor
    · rintro ⟨j, hj, heq⟩
      obtain ⟨hname, rfl⟩ := Prod.mk.inj heq
      rw [← eq_of_name (List.getElem_mem hj) (List.mem_of_getElem? h) hname]
      exact List.getElem?_eq_getElem hj
    · intro hi
      obtain ⟨hlt, rfl⟩ := List.getElem?_eq_some_iff.mp hi
      exact ⟨i, hlt, rfl⟩
  obtain ⟨i, hi⟩ := Association.exists_lookup (hmem.mpr h)
  have hget := hmem.mp (Association.mem_of_lookup hi)
  obtain ⟨hlt, heq⟩ := List.getElem?_eq_some_iff.mp hget
  obtain ⟨hlt', heq'⟩ := List.getElem?_eq_some_iff.mp h
  rw [symbolKey?, hi, g.alphabet_nodup.getElem_inj_iff.mp (heq.trans heq'.symm)]

end Grammar

end Slr
