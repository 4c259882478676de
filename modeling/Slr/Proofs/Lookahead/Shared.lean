import Slr.Proofs.Grammar.Shared
import Slr.Proofs.Lookahead.Follow

/-! # FIRST and FOLLOW of what one grammar carries over to another

A nonterminal that vanishes by live rules vanishes in any grammar that has them, so
FIRST of a live symbol is a part of FIRST there. If live nonterminals stand in live
rules only, the same goes for what may stand behind them. -/

namespace Slr.Grammar

open Reachability

/-- A terminal may stand behind a nonterminal, as the table takes it. -/
def Follows (g : Grammar) (n k : String) : Prop := k ∈ (g.follow.lookup n).getD []

variable {live : String → Prop} {g g' : Grammar} {n m t k : String} {x y : Symbol}
  {w ys : List Symbol}

theorem follows_iff : g.Follows n k ↔
    n ≠ goalName ∧ n ∈ g.nonterminals ∧ k ∈ g.followOf (FirstSets.ofGrammar g) n := by
  unfold Follows
  constructor
  · intro h
    cases hlookup : g.follow.lookup n with
    | none => simp [hlookup] at h
    | some ts =>
      obtain ⟨hmem, hgoal⟩ := List.mem_filter.mp (Association.mem_of_lookup hlookup)
      obtain ⟨n', hn, heq⟩ := List.mem_map.mp hmem
      obtain ⟨rfl, rfl⟩ := Prod.mk.inj heq
      exact ⟨by simpa using hgoal, hn, by simpa [hlookup] using h⟩
  · intro h
    obtain ⟨hgoal, hn, hk⟩ := h
    simpa [follow_lookup hn hgoal] using hk

theorem mem_terminals_of_directFollow (ht : t ∈ g.directFollow (.ofGrammar g) n) :
    t ∈ g.terminals := by
  obtain ⟨lhs, ys, ho, x, hopen, hfirst⟩ := mem_directFollow_iff.mp ht
  obtain ⟨p, hp, -, xs, hrhs⟩ := mem_occurrences_iff.mp ho
  have hx : x ∈ g.alphabet :=
    mem_alphabet_of_mem_rhs hp (by simp [hrhs, openings_subset hopen])
  rw [first?_eq hx] at hfirst
  exact ((mem_firstOf_iff hx).mp hfirst).1

namespace Carries

variable (h : g.Carries live g')

include h

/-! ## FIRST -/

theorem mem_nullable (hlive : live n) (hn : n ∈ g.nullable) : n ∈ g'.nullable := by
  have hafter : n ∈ g.nullableAfter g.nonterminals.length := hn
  clear hn
  generalize g.nonterminals.length = rounds at hafter
  induction rounds generalizing n with
  | zero => cases hafter
  | succ rounds ih =>
    obtain ⟨-, hany⟩ := List.mem_filter.mp
      (show n ∈ g.nullableRound (g.nullableAfter rounds) from hafter)
    simp only [List.any_eq_true, List.all_eq_true] at hany
    obtain ⟨p, hfor, hall⟩ := hany
    obtain ⟨hp, rfl⟩ := mem_productionsFor.mp hfor
    obtain ⟨p', hp', hrule⟩ := h.rules p hp hlive
    obtain ⟨hlhs, hrhs⟩ := Prod.mk.inj hrule
    rw [← hlhs]
    refine mem_nullable_of_production hp' ?_
    intro x hx
    rw [hrhs] at hx
    have hvanishes := hall x hx
    cases x with
    | terminal t => cases hvanishes
    | nonterminal m =>
      have hm : m ∈ g.nullableAfter rounds := by simpa [vanishes] using hvanishes
      simpa [vanishes] using ih (h.closed p hp hlive m hx) hm

theorem vanishes (hlive : ∀ n, x = .nonterminal n → live n)
    (hx : Slr.vanishes g.nullable x = true) : Slr.vanishes g'.nullable x = true := by
  cases x with
  | terminal t => cases hx
  | nonterminal n =>
    have hn : n ∈ g.nullable := by simpa [Slr.vanishes] using hx
    simpa [Slr.vanishes] using h.mem_nullable (hlive n rfl) hn

theorem openings_subset (hlive : ∀ n, .nonterminal n ∈ w → live n) :
    openings g.nullable w ⊆ openings g'.nullable w := by
  induction w with
  | nil => simp [openings]
  | cons y w ih =>
    have hrest := ih fun n hn => hlive n (List.mem_cons_of_mem _ hn)
    have hfirst (hy : Slr.vanishes g.nullable y = true) : Slr.vanishes g'.nullable y = true :=
      h.vanishes (fun n hn => hlive n (by simp [hn])) hy
    intro x hx
    simp only [openings] at hx ⊢
    by_cases hy : Slr.vanishes g.nullable y = true
    · rw [if_pos hy] at hx
      rw [if_pos (hfirst hy)]
      rcases List.mem_cons.mp hx with rfl | hx
      · exact List.mem_cons_self
      · exact List.mem_cons_of_mem _ (hrest hx)
    · rw [if_neg hy, List.mem_singleton] at hx
      subst hx
      split <;> simp

/-- Corners of live symbols lead to live symbols, in both grammars. -/
theorem corners_path (hlive : ∀ n, x = .nonterminal n → live n)
    (path : Path (g.corners g.nullable) x y) :
    (∀ n, y = .nonterminal n → live n) ∧ Path (g'.corners g'.nullable) x y := by
  induction path with
  | refl => exact ⟨hlive, .refl _⟩
  | @tail y z _ edge ih =>
    obtain ⟨hy, path⟩ := ih
    cases y with
    | terminal t => cases edge
    | nonterminal n =>
      obtain ⟨p, hfor, hopen⟩ := List.mem_flatMap.mp edge
      obtain ⟨hp, rfl⟩ := mem_productionsFor.mp hfor
      have hlhs : live p.lhs := hy _ rfl
      obtain ⟨p', hp', hrule⟩ := h.rules p hp hlhs
      obtain ⟨hlhs', hrhs'⟩ := Prod.mk.inj hrule
      have hrhs : ∀ n, .nonterminal n ∈ p.rhs → live n := h.closed p hp hlhs
      refine ⟨fun n hz => hrhs n (hz ▸ Grammar.openings_subset hopen), path.tail ?_⟩
      refine List.mem_flatMap.mpr ⟨p', mem_productionsFor.mpr ⟨hp', hlhs'⟩, ?_⟩
      rw [hrhs']
      exact h.openings_subset hrhs hopen

theorem firstOf_subset (hlive : ∀ n, x = .nonterminal n → live n) (hx : x ∈ g.alphabet)
    (hx' : x ∈ g'.alphabet) : g.firstOf g.nullable x ⊆ g'.firstOf g'.nullable x := by
  intro t ht
  obtain ⟨-, path⟩ := (mem_firstOf_iff hx).mp ht
  obtain ⟨-, path'⟩ := h.corners_path hlive path
  exact (mem_firstOf_iff hx').mpr
    ⟨terminal_mem_alphabet.mp (mem_alphabet_of_path hx' path'), path'⟩

/-! ## FOLLOW -/

section

variable (hfence : g.Fenced live)

include hfence

/-- Live nonterminals occur as they do in the other grammar. -/
theorem occurs {lhs : String} (hlive : live n) (ho : (lhs, ys) ∈ g.occurrences n) :
    live lhs ∧ (∀ m, .nonterminal m ∈ ys → live m) ∧ (∀ x ∈ ys, x ∈ g.alphabet) ∧
      (∀ x ∈ ys, x ∈ g'.alphabet) ∧ (lhs, ys) ∈ g'.occurrences n := by
  obtain ⟨p, hp, rfl, xs, hrhs⟩ := mem_occurrences_iff.mp ho
  have hlhs : live p.lhs := hfence p hp n hlive (by simp [hrhs])
  obtain ⟨p', hp', hrule⟩ := h.rules p hp hlhs
  obtain ⟨hlhs', hrhs'⟩ := Prod.mk.inj hrule
  have hmem : ∀ x ∈ ys, x ∈ p.rhs := fun x hx => by simp [hrhs, hx]
  exact ⟨hlhs, fun m hm => h.closed p hp hlhs m (hmem _ hm),
    fun x hx => mem_alphabet_of_mem_rhs hp (hmem x hx),
    fun x hx => mem_alphabet_of_mem_rhs hp' (hrhs' ▸ hmem x hx),
    mem_occurrences_iff.mpr ⟨p', hp', hlhs', xs, hrhs'.trans hrhs⟩⟩

theorem enclosing_path (hlive : live n) (path : Path (g.enclosing g.nullable) n m) :
    live m ∧ Path (g'.enclosing g'.nullable) n m := by
  induction path with
  | refl => exact ⟨hlive, .refl _⟩
  | tail _ edge ih =>
    obtain ⟨hm, path⟩ := ih
    obtain ⟨ys, ho, hall⟩ := mem_enclosing_iff.mp edge
    obtain ⟨hlhs, hys, -, -, ho'⟩ := h.occurs hfence hm ho
    refine ⟨hlhs, path.tail (mem_enclosing_iff.mpr ⟨ys, ho', ?_⟩)⟩
    rw [List.all_eq_true] at hall ⊢
    exact fun x hx => h.vanishes (fun k hk => hys k (hk ▸ hx)) (hall x hx)

theorem directFollow_subset (hlive : live n) :
    g.directFollow (.ofGrammar g) n ⊆ g'.directFollow (.ofGrammar g') n := by
  intro t ht
  obtain ⟨lhs, ys, ho, x, hopen, hfirst⟩ := mem_directFollow_iff.mp ht
  obtain ⟨-, hys, hmem, hmem', ho'⟩ := h.occurs hfence hlive ho
  have hx : x ∈ ys := Grammar.openings_subset hopen
  rw [first?_eq (hmem x hx)] at hfirst
  refine mem_directFollow_iff.mpr ⟨lhs, ys, ho', x, h.openings_subset hys hopen, ?_⟩
  rw [first?_eq (hmem' x hx)]
  exact h.firstOf_subset (fun k hk => hys k (hk ▸ hx)) (hmem x hx) (hmem' x hx) hfirst

/-- What stands behind a live nonterminal stands there in the other grammar too. -/
theorem follows (hlive : live n) (hk : g.Follows n k) : g'.Follows n k := by
  obtain ⟨hgoal, hn, hk⟩ := follows_iff.mp hk
  have hn' := h.mem_nonterminals hlive hn
  obtain ⟨hterminal, m, path, hdirect⟩ := (mem_followOf_iff hn).mp hk
  obtain ⟨hm, path'⟩ := h.enclosing_path hfence hlive path
  have hdirect' := h.directFollow_subset hfence hm hdirect
  exact follows_iff.mpr ⟨hgoal, hn', (mem_followOf_iff hn').mpr
    ⟨mem_terminals_of_directFollow hdirect', m, path', hdirect'⟩⟩

end

end Carries

end Slr.Grammar
