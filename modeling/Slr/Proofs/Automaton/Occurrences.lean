import Slr.Proofs.Automaton.Extension
import Slr.Proofs.Automaton.Prefixes
import Slr.Proofs.Grammar.Shared

/-! # Which items the states hold

The items of all states are those of the productions for live nonterminals: the goal and
what derivations come to. What stands before a nonterminal in a live production can be
seen, so some way leads to a state that expects the nonterminal, whether or not anything
derives a word of terminals. Only the end of the input is never seen. So the nonterminals
without an item in any state, which a warning names, are those out of reach. -/

namespace Slr

variable {g : Grammar} {xs : List Symbol} {it : Item} {p : Production} {n : String}

/-- The left hand side of a valid item is live. -/
theorem ValidItem.live (h : ValidItem g xs it) : g.Live it.production.lhs := by
  induction h with
  | goal => exact .inl rfl
  | predict h hnext _ => exact .inr (h.reached (Item.next_mem_rhs hnext))
  | advance _ _ _ hadv ih => rwa [(Item.advance?_eq_some_iff.mp hadv).1]

/-- Nothing comes behind the end of the input. -/
theorem Grammar.end_not_mem_before {ys zs : List Symbol} {x : Symbol} (hp : p ∈ g.productions)
    (hrhs : p.rhs = ys ++ x :: zs) : .terminal endName ∉ ys := by
  intro hend
  obtain rfl := eq_goal_of_end_mem hp (hrhs ▸ List.mem_append_left _ hend)
  obtain ⟨us, vs, rfl⟩ := List.append_of_mem hend
  -- the end is the last symbol of the goal, and here one more comes behind it
  cases us with
  | nil => simp [Grammar.goal, Production.goal] at hrhs
  | cons u us =>
    have hlength := congrArg List.length hrhs
    simp only [Grammar.goal, Production.goal, List.length_cons, List.length_append,
      List.length_nil] at hlength
    omega

/-- The productions for what derivations come to can be begun. -/
theorem Grammar.Reached.exists_valid (h : g.Reached n) :
    ∀ p ∈ g.productions, p.lhs = n → ∃ xs, ValidItem g xs (.start p) := by
  induction h with
  | start =>
    rintro p hp hlhs
    exact ⟨[], ValidItem.goal.predict (by rw [hlhs]; rfl) hp⟩
  | @part q n _ hq hn ih =>
    rintro p hp rfl
    obtain ⟨xs, hbegun⟩ := ih q hq rfl
    obtain ⟨ys, zs, hrhs⟩ := List.append_of_mem hn
    obtain ⟨it, hvalid, rfl, hdot⟩ := hbegun.over hrhs (end_not_mem_before hq hrhs)
    exact ⟨_, hvalid.predict (by simp [Item.next, hrhs, hdot]) hp⟩

/-- The items of live productions are valid for some symbols, but for the goal's last one. -/
theorem exists_validItem_iff : (∃ xs, ValidItem g xs it) ↔
    it.production ∈ g.productions ∧ g.Live it.production.lhs ∧
      ¬ (it.production = g.goal ∧ it.next = none) := by
  constructor
  · rintro ⟨xs, h⟩
    exact ⟨h.production_mem, h.live, fun hend => h.production_ne_goal hend.2 hend.1⟩
  · rintro ⟨hp, hlive, hlast⟩
    obtain ⟨xs, hbegun⟩ : ∃ xs, ValidItem g xs (.start it.production) := by
      rcases hlive with hgoal | hreached
      · rw [Grammar.eq_goal_of_lhs hp hgoal]
        exact ⟨[], .goal⟩
      · exact hreached.exists_valid _ hp rfl
    have hseen : .terminal endName ∉ it.production.rhs.take it.dot := by
      cases hnext : it.next with
      | some x => exact Grammar.end_not_mem_before hp (Item.rhs_eq_of_next hnext)
      | none =>
        intro hend
        exact hlast ⟨Grammar.eq_goal_of_end_mem hp (List.mem_of_mem_take hend), hnext⟩
    obtain ⟨it', hvalid, hprod, hdot⟩ :=
      hbegun.over (List.take_append_drop it.dot _).symm hseen
    obtain rfl := Item.ext_of hprod (hdot.trans (List.length_take_of_le it.dot_le))
    exact ⟨_, hvalid⟩

namespace Automaton

/-- A state holds an item if the item is valid for some symbols. -/
theorem exists_mem_states_iff :
    (∃ items ∈ (build g).states, it ∈ items) ↔ ∃ xs, ValidItem g xs it := by
  have hc := build_canonical g
  constructor
  · rintro ⟨items, hitems, hit⟩
    obtain ⟨q, hq⟩ := List.getElem?_of_mem hitems
    obtain ⟨qs, xs, way⟩ := hc.reached q (List.getElem?_eq_some_iff.mp hq).1
    exact ⟨xs, (hc.mem_items_iff way).mp (items_eq hq ▸ hit)⟩
  · rintro ⟨xs, h⟩
    obtain ⟨q, qs, way⟩ := hc.exists_way h
    have hit := (hc.mem_items_iff way).mpr h
    have hq := List.getElem?_eq_getElem (lt_of_mem_items hit)
    exact ⟨_, List.getElem_mem (lt_of_mem_items hit), items_eq hq ▸ hit⟩

/-- The nonterminals without an item in any state are those out of reach. -/
theorem mem_unreachable_iff : n ∈ (build g).unreachable ↔ n ∈ g.nonterminals ∧ ¬ g.Live n := by
  have hgrammar := (build_canonical g).grammar_eq
  simp only [unreachable, hgrammar, List.mem_filter, decide_eq_true_iff, List.mem_flatMap,
    List.mem_map]
  refine and_congr_right fun hn => not_congr ?_
  constructor
  · rintro ⟨items, hitems, it, hit, rfl⟩
    exact (exists_validItem_iff.mp (exists_mem_states_iff.mp ⟨items, hitems, hit⟩)).2.1
  · intro hlive
    obtain ⟨p, hp, rfl⟩ := Grammar.mem_nonterminals.mp hn
    have hfirst : ¬ ((Item.start p).production = g.goal ∧ (Item.start p).next = none) := by
      rintro ⟨rfl, hnone⟩
      cases hnone
    obtain ⟨items, hitems, hit⟩ :=
      exists_mem_states_iff.mpr (exists_validItem_iff.mpr ⟨hp, hlive, hfirst⟩)
    exact ⟨items, hitems, _, hit, rfl⟩

/-- A warning is the only note that is not of the level of information. -/
theorem warnings_eq (a : Automaton) :
    a.notes.filter (·.level = .warning) =
      if a.unreachable = [] then []
      else [⟨.warning, .build,
        "Unreachable nonterminals: " ++ ", ".intercalate a.unreachable⟩] := by
  unfold notes
  cases a.unreachable <;> rfl

/-- A finished automaton is warned about if there are nonterminals out of reach; the warning
names them, each once and in the order of names. All other items have a state that holds
them, the goal's last one apart. -/
theorem unreachable_exact (g : Grammar) :
    (∃ names : List String, names.Pairwise (· < ·) ∧
      (∀ n, n ∈ names ↔ n ∈ g.nonterminals ∧ ¬ g.Live n) ∧
      (build g).notes.filter (·.level = .warning) =
        if names = [] then []
        else [⟨.warning, .build, "Unreachable nonterminals: " ++ ", ".intercalate names⟩]) ∧
    ∀ it : Item, (∃ items ∈ (build g).states, it ∈ items) ↔
      it.production ∈ g.productions ∧ g.Live it.production.lhs ∧
        ¬ (it.production = g.goal ∧ it.next = none) := by
  refine ⟨⟨(build g).unreachable, ?_, fun n => mem_unreachable_iff, warnings_eq _⟩, fun it => ?_⟩
  · exact (sortNames_pairwise _).sublist List.filter_sublist
  · rw [exists_mem_states_iff, exists_validItem_iff]

end Automaton

end Slr
