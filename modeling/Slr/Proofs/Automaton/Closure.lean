import Slr.Automaton.Basic
import Slr.Proofs.Grammar.Symbols
import Slr.Proofs.Reachability

/-! # Closures of item sets are least closed sets

`Brought` says without rounds which items seeds bring with them; `closure` lists
exactly these. Advancing an item is described here too, so later modules need
not open the items. -/

namespace Slr

namespace Item

variable {it it' : Item} {x : Symbol} {p : Production}

theorem ext_of {it it' : Item} (hp : it.production = it'.production) (hd : it.dot = it'.dot) :
    it = it' := by
  cases it
  cases it'
  simp_all

@[simp] theorem start_production : (Item.start p).production = p := rfl

@[simp] theorem start_dot : (Item.start p).dot = 0 := rfl

theorem next_eq_none_iff : it.next = none ↔ it.dot = it.production.rhs.length := by
  have hle := it.dot_le
  rw [next, List.getElem?_eq_none_iff]
  omega

theorem dot_lt_of_next (h : it.next = some x) : it.dot < it.production.rhs.length :=
  (List.getElem?_eq_some_iff.mp h).1

theorem next_mem_rhs (h : it.next = some x) : x ∈ it.production.rhs :=
  List.mem_of_getElem? h

/-- The symbols from the place on begin with the next one. -/
theorem drop_eq_of_next (h : it.next = some x) :
    it.production.rhs.drop it.dot = x :: it.production.rhs.drop (it.dot + 1) := by
  obtain ⟨hlt, hx⟩ := List.getElem?_eq_some_iff.mp h
  rw [List.drop_eq_getElem_cons hlt, hx]

/-- An item advances over its next symbol. -/
theorem advance?_eq_some_iff :
    it.advance? = some it' ↔ it'.production = it.production ∧ it'.dot = it.dot + 1 := by
  unfold advance?
  constructor
  · intro h
    split at h
    · cases h
      exact ⟨rfl, rfl⟩
    · cases h
  · intro h
    obtain ⟨hp, hd⟩ := h
    have hle := it'.dot_le
    rw [hp] at hle
    rw [dif_pos (by omega)]
    exact congrArg some (ext_of hp.symm hd.symm)

theorem exists_advance (h : it.next = some x) : ∃ it', it.advance? = some it' := by
  simp [advance?, dot_lt_of_next h]

/-- What items come to that advance over a symbol. -/
theorem mem_advanced_iff {items : List Item} :
    it' ∈ (items.filterMap fun it => if it.next = some x then it.advance? else none) ↔
      ∃ it ∈ items, it.next = some x ∧ it.advance? = some it' := by
  simp only [List.mem_filterMap, Option.ite_none_right_eq_some]

/-- What was seen by an item that advanced over a symbol. -/
theorem take_of_advance (h : it.next = some x) (hadv : it.advance? = some it') :
    it'.production.rhs.take it'.dot = it.production.rhs.take it.dot ++ [x] := by
  obtain ⟨hp, hd⟩ := advance?_eq_some_iff.mp hadv
  obtain ⟨hlt, hx⟩ := List.getElem?_eq_some_iff.mp h
  rw [hp, hd, List.take_add_one, List.getElem?_eq_getElem hlt, hx]
  rfl

end Item

namespace Grammar

variable {g : Grammar} {seeds : List Item} {it : Item} {n : String} {p : Production}

/-- The items that seeds bring with them. -/
inductive Brought (g : Grammar) (seeds : List Item) : Item → Prop
  | seed {it : Item} (h : it ∈ seeds) : Brought g seeds it
  | predict {it : Item} {p : Production} (h : Brought g seeds it)
      (hnext : it.next = some (.nonterminal p.lhs)) (hp : p ∈ g.productions) :
      Brought g seeds (.start p)

theorem Brought.production_mem (hseeds : ∀ it ∈ seeds, it.production ∈ g.productions)
    (h : g.Brought seeds it) : it.production ∈ g.productions := by
  cases h with
  | seed hit => exact hseeds it hit
  | predict _ _ hp => exact hp

theorem mem_leads_iff {m : String} :
    m ∈ g.leads n ↔
      ∃ p ∈ g.productions, p.lhs = n ∧ (Item.start p).next = some (.nonterminal m) := by
  simp only [leads, List.mem_filterMap, mem_productionsFor]
  constructor
  · intro hex
    obtain ⟨p, ⟨hp, hlhs⟩, h⟩ := hex
    cases hrhs : p.rhs with
    | nil => simp [hrhs] at h
    | cons x xs =>
      cases x with
      | terminal t => simp [hrhs, Symbol.nonterminalName?] at h
      | nonterminal k =>
        simp only [hrhs, List.head?_cons, Option.bind_some, Symbol.nonterminalName?,
          Option.some.injEq] at h
        exact ⟨p, hp, hlhs, by simp [Item.next, Item.start, hrhs, h]⟩
  · intro hex
    obtain ⟨p, hp, hlhs, h⟩ := hex
    refine ⟨p, ⟨hp, hlhs⟩, ?_⟩
    have hhead : p.rhs.head? = some (.nonterminal m) := by
      simpa [Item.next, Item.start, List.head?_eq_getElem?] using h
    simp [hhead, Symbol.nonterminalName?]

theorem mem_expected_names_iff :
    n ∈ (seeds.filterMap fun it => it.next.bind Symbol.nonterminalName?) ↔
      ∃ it ∈ seeds, it.next = some (.nonterminal n) := by
  simp only [List.mem_filterMap]
  constructor
  · intro hex
    obtain ⟨it, hit, h⟩ := hex
    refine ⟨it, hit, ?_⟩
    cases hnext : it.next with
    | none => simp [hnext] at h
    | some x => cases x <;> simp_all [Symbol.nonterminalName?]
  · intro hex
    obtain ⟨it, hit, h⟩ := hex
    exact ⟨it, hit, by simp [h, Symbol.nonterminalName?]⟩

/-- A nonterminal is predicted if a seed expects it, or a first symbol leads to it. -/
theorem mem_predicted_iff (hseeds : ∀ it ∈ seeds, it.production ∈ g.productions) :
    n ∈ g.predicted seeds ↔
      ∃ it ∈ seeds, ∃ m, it.next = some (.nonterminal m) ∧ Reachability.Path g.leads m n := by
  let nodes := g.productions.map Production.lhs
  have hedges : ∀ a ∈ nodes, ∀ b ∈ g.leads a, b ∈ nodes := by
    intro a _ b hb
    obtain ⟨p, hp, -, hnext⟩ := mem_leads_iff.mp hb
    exact List.mem_map.mpr (mem_nonterminals.mp (defined_of_mem_rhs hp (Item.next_mem_rhs hnext)))
  have hnames : ∀ a ∈ (seeds.filterMap fun it => it.next.bind Symbol.nonterminalName?),
      a ∈ nodes := by
    intro a ha
    obtain ⟨it, hit, hnext⟩ := mem_expected_names_iff.mp ha
    exact List.mem_map.mpr
      (mem_nonterminals.mp (defined_of_mem_rhs (hseeds it hit) (Item.next_mem_rhs hnext)))
  rw [predicted, Reachability.mem_reach_iff hedges hnames (by simp [nodes])]
  constructor
  · intro h
    obtain ⟨m, hm, hpath⟩ := h
    obtain ⟨it, hit, hnext⟩ := mem_expected_names_iff.mp hm
    exact ⟨it, hit, m, hnext, hpath⟩
  · intro h
    obtain ⟨it, hit, m, hnext, hpath⟩ := h
    exact ⟨m, mem_expected_names_iff.mpr ⟨it, hit, hnext⟩, hpath⟩

/-- A predicted nonterminal brings its productions. -/
theorem brought_of_path {m : String} (hit : it ∈ seeds) (hnext : it.next = some (.nonterminal m))
    (hpath : Reachability.Path g.leads m n) :
    ∀ p ∈ g.productions, p.lhs = n → g.Brought seeds (.start p) := by
  induction hpath with
  | refl =>
    intro p hp hlhs
    exact .predict (.seed hit) (by rw [hlhs]; exact hnext) hp
  | tail _ edge ih =>
    intro p hp hlhs
    obtain ⟨q, hq, hqlhs, hqnext⟩ := mem_leads_iff.mp edge
    exact .predict (ih q hq hqlhs) (by rw [hlhs]; exact hqnext) hp

/-- The closure of seeds lists the items that they bring. -/
theorem mem_closure_iff (hseeds : ∀ it ∈ seeds, it.production ∈ g.productions) :
    it ∈ g.closure seeds ↔ g.Brought seeds it := by
  simp only [closure, List.mem_filter, mem_items, Bool.or_eq_true, Bool.and_eq_true,
    decide_eq_true_eq, beq_iff_eq]
  constructor
  · intro h
    obtain ⟨hp, hit | ⟨hdot, hpred⟩⟩ := h
    · exact .seed hit
    · obtain ⟨seed, hseed, m, hnext, hpath⟩ := (mem_predicted_iff hseeds).mp hpred
      have h := brought_of_path hseed hnext hpath it.production hp rfl
      have heq : Item.start it.production = it := Item.ext_of rfl hdot.symm
      rwa [heq] at h
  · intro h
    induction h with
    | seed h => exact ⟨hseeds _ h, Or.inl h⟩
    | @predict it p h hnext hp ih =>
      refine ⟨hp, Or.inr ⟨rfl, (mem_predicted_iff hseeds).mpr ?_⟩⟩
      rcases ih.2 with hit | ⟨hdot, hpred⟩
      · exact ⟨it, hit, p.lhs, hnext, .refl _⟩
      · obtain ⟨seed, hseed, m, hm, hpath⟩ := (mem_predicted_iff hseeds).mp hpred
        have hstart : it = .start it.production := Item.ext_of rfl hdot
        exact ⟨seed, hseed, m, hm, hpath.tail
          (mem_leads_iff.mpr ⟨it.production, ih.1, rfl, by rw [← hstart]; exact hnext⟩)⟩

theorem closure_sublist (g : Grammar) (seeds : List Item) :
    List.Sublist (g.closure seeds) g.items :=
  List.filter_sublist

theorem production_mem_of_sublist {items : ItemSet} (h : List.Sublist items g.items)
    (hit : it ∈ items) : it.production ∈ g.productions :=
  mem_items.mp (h.subset hit)

theorem production_mem_of_advanced {items : ItemSet} {x : Symbol}
    (h : List.Sublist items g.items) :
    ∀ it ∈ (items.filterMap fun it => if it.next = some x then it.advance? else none),
      it.production ∈ g.productions := by
  intro it' hit'
  obtain ⟨it, hit, -, hadv⟩ := Item.mem_advanced_iff.mp hit'
  rw [(Item.advance?_eq_some_iff.mp hadv).1]
  exact production_mem_of_sublist h hit

/-- The items that a set has behind a symbol. -/
theorem mem_goto_iff {items : ItemSet} {x : Symbol} (h : List.Sublist items g.items) :
    it ∈ g.goto items x ↔
      g.Brought (items.filterMap fun it => if it.next = some x then it.advance? else none) it :=
  mem_closure_iff (production_mem_of_advanced h)

theorem mem_initial_iff : it ∈ Automaton.initial g ↔ g.Brought [.start g.goal] it :=
  mem_closure_iff fun it' hit' => by
    obtain rfl := List.mem_singleton.mp hit'
    exact g.goal_mem

end Grammar

end Slr
