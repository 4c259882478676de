import Mathlib.Data.List.Forall2
import Mathlib.Data.List.Sort
import Slr.Automaton.Path
import Slr.Proofs.Automaton.Depth
import Slr.Proofs.Automaton.States
import Slr.Proofs.Grammar.Shared

/-! # Grammars that share their live rules have the same automaton

Items are alike if they have the same rule and place, sets of items if every item of
the one is like an item of the other, and all are of live rules. Sets that are alike
expect the same symbols and lead to sets that are alike. Since a grammar has no rule
twice and lists its items in one order, two sets of it are the same if they are like
the same set of the other grammar. So two searches meet states that are alike under the
same numbers; one may have more steps left when both are done. -/

namespace Slr

namespace Item

variable {it it' : Item}

/-- The rule and the place of an item, without the index of its production. -/
def core (it : Item) : (String × List Symbol) × Nat := (it.production.rule, it.dot)

theorem core_eq_iff :
    it.core = it'.core ↔ it.production.lhs = it'.production.lhs ∧
      it.production.rhs = it'.production.rhs ∧ it.dot = it'.dot := by
  simp [core, Production.rule, and_assoc]

theorem next_eq_of_core (h : it.core = it'.core) : it.next = it'.next := by
  obtain ⟨-, hrhs, hdot⟩ := core_eq_iff.mp h
  rw [next, next, hrhs, hdot]

theorem text_eq_of_core (h : it.core = it'.core) : it.text = it'.text := by
  obtain ⟨⟨i, lhs, rhs⟩, dot, hle⟩ := it
  obtain ⟨⟨i', lhs', rhs'⟩, dot', hle'⟩ := it'
  obtain ⟨rfl, rfl, rfl⟩ := core_eq_iff.mp h
  rfl

/-- Items that are alike advance to items that are alike. -/
theorem advance?_of_core {jt : Item} (h : it'.core = it.core) (hadv : it.advance? = some jt) :
    ∃ jt', it'.advance? = some jt' ∧ jt'.core = jt.core := by
  obtain ⟨hlhs, hrhs, hdot⟩ := core_eq_iff.mp h
  obtain ⟨hproduction, hplace⟩ := advance?_eq_some_iff.mp hadv
  have hle : it'.dot + 1 ≤ it'.production.rhs.length := by
    rw [hrhs, hdot, ← hproduction, ← hplace]
    exact jt.dot_le
  refine ⟨⟨it'.production, it'.dot + 1, hle⟩, advance?_eq_some_iff.mpr ⟨rfl, rfl⟩, ?_⟩
  rw [core, core, hproduction, hplace, ← hdot]
  exact congrArg (·, it'.dot + 1) (Prod.mk.inj h).1

/-- Every item of the one list is of a live rule, and like an item of the other. -/
def Covered (live : String → Prop) (items items' : List Item) : Prop :=
  ∀ it ∈ items, live it.production.lhs ∧ ∃ it' ∈ items', it'.core = it.core

end Item

/-! ## The items of a grammar -/

namespace Grammar

variable {g : Grammar} {items items' : List Item} {it it' : Item}

/-- The cores of the items of a rule, from left to right. -/
def coresOf (rule : String × List Symbol) : List ((String × List Symbol) × Nat) :=
  (List.range (rule.2.length + 1)).map (rule, ·)

theorem map_core_items (g : Grammar) :
    g.items.map Item.core = (g.productions.map Production.rule).flatMap coresOf := by
  have hof (p : Production) : (Item.ofProduction p).map Item.core = coresOf p.rule := by
    apply List.ext_getElem
    · simp [Item.ofProduction, coresOf, Production.rule]
    · intro i hi hi'
      simp only [Item.ofProduction, coresOf, List.getElem_map, List.getElem_ofFn,
        List.getElem_range, Item.core]
  simp only [items, List.map_flatMap, List.flatMap_map, hof]

theorem cores_nodup (g : Grammar) : (g.items.map Item.core).Nodup := by
  rw [map_core_items, List.nodup_flatMap]
  refine ⟨fun rule _ => List.nodup_range.map fun i j h => (Prod.mk.inj h).2, ?_⟩
  refine g.wellFormed.distinct.imp ?_
  intro r s hne c hr hs
  obtain ⟨i, -, rfl⟩ := List.mem_map.mp hr
  obtain ⟨j, -, h⟩ := List.mem_map.mp hs
  exact hne (Prod.mk.inj h).1.symm

theorem eq_of_core (hit : it ∈ g.items) (hit' : it' ∈ g.items) (h : it.core = it'.core) :
    it = it' :=
  List.inj_on_of_nodup_map g.cores_nodup hit hit' h

/-- A set lists its items in the order of the grammar. -/
def Lists (g : Grammar) (items : ItemSet) : Prop := items = g.items.filter (· ∈ items)

theorem Lists.sublist (h : g.Lists items) : List.Sublist items g.items := by
  rw [h]
  exact List.filter_sublist

theorem Lists.eq_of_mem_iff (h : g.Lists items) (h' : g.Lists items')
    (hmem : ∀ it, it ∈ items ↔ it ∈ items') : items = items' := by
  rw [h, h']
  exact List.filter_congr fun it _ => decide_eq_decide.mpr (hmem it)

theorem closure_lists (g : Grammar) (seeds : List Item) : g.Lists (g.closure seeds) := by
  refine List.filter_congr fun it hit => Bool.eq_iff_iff.mpr ?_
  simp [closure, hit]

theorem Lists.cores_nodup (h : g.Lists items) : (items.map Item.core).Nodup :=
  g.cores_nodup.sublist (h.sublist.map _)

end Grammar

/-- Sets of live items of two grammars that are the same but for the indices of productions. -/
structure ItemSet.Alike (live : String → Prop) (g g' : Grammar) (items items' : ItemSet) : Prop where
  lists : g.Lists items
  lists' : g'.Lists items'
  covered : Item.Covered live items items'
  covered' : Item.Covered live items' items

namespace ItemSet.Alike

variable {live : String → Prop} {g g' : Grammar} {items items' others others' : ItemSet} {x : Symbol}

theorem symm (h : Alike live g g' items items') : Alike live g' g items' items :=
  ⟨h.lists', h.lists, h.covered', h.covered⟩

theorem perm (h : Alike live g g' items items') :
    (items.map Item.core).Perm (items'.map Item.core) := by
  refine (List.perm_ext_iff_of_nodup h.lists.cores_nodup h.lists'.cores_nodup).mpr fun c => ?_
  simp only [List.mem_map]
  constructor
  · intro hc
    obtain ⟨it, hit, rfl⟩ := hc
    exact (h.covered it hit).2
  · intro hc
    obtain ⟨it', hit', rfl⟩ := hc
    exact (h.covered' it' hit').2

/-- Sets of one grammar are the same if they are like one set of the other. -/
theorem eq_of_left (h : Alike live g g' items items') (ho : Alike live g g' items others') :
    items' = others' := by
  have subset {items' others' : ItemSet} (h : Alike live g g' items items')
      (ho : Alike live g g' items others') : items' ⊆ others' := by
    intro it' hit'
    obtain ⟨-, it, hit, hcore⟩ := h.covered' it' hit'
    obtain ⟨-, ot', hot', hcore'⟩ := ho.covered it hit
    rwa [← Grammar.eq_of_core (ho.lists'.sublist.subset hot') (h.lists'.sublist.subset hit')
      (hcore'.trans hcore)]
  exact h.lists'.eq_of_mem_iff ho.lists' fun it => ⟨fun hit => subset h ho hit, fun hit =>
    subset ho h hit⟩

theorem eq_iff (h : Alike live g g' items items') (ho : Alike live g g' others others') :
    items = others ↔ items' = others' := by
  constructor
  · intro heq
    subst heq
    exact h.eq_of_left ho
  · intro heq
    subst heq
    exact h.symm.eq_of_left ho.symm

theorem exists_next_iff (h : Alike live g g' items items') :
    (∃ it ∈ items, it.next = some x) ↔ ∃ it ∈ items', it.next = some x := by
  have transfer {g g' : Grammar} {items items' : ItemSet} (h : Alike live g g' items items')
      (hex : ∃ it ∈ items, it.next = some x) : ∃ it ∈ items', it.next = some x := by
    obtain ⟨it, hit, hnext⟩ := hex
    obtain ⟨-, it', hit', hcore⟩ := h.covered it hit
    exact ⟨it', hit', (Item.next_eq_of_core hcore).trans hnext⟩
  exact ⟨transfer h, transfer h.symm⟩

theorem depthOf_eq (h : Alike live g g' items items') :
    Automaton.depthOf items = Automaton.depthOf items' := by
  have hle {g g' : Grammar} {items items' : ItemSet} (h : Alike live g g' items items') :
      Automaton.depthOf items ≤ Automaton.depthOf items' := by
    refine Automaton.depthOf_le_iff.mpr fun it hit => ?_
    obtain ⟨-, it', hit', hcore⟩ := h.covered it hit
    rw [← (Prod.mk.inj hcore).2]
    exact Automaton.depthOf_le_iff.mp (Nat.le_refl _) it' hit'
  exact Nat.le_antisymm (hle h) (hle h.symm)

end ItemSet.Alike

/-! ## Closures and successors -/

namespace Grammar.Shares

variable {live : String → Prop} {g g' : Grammar} (h : g.Shares live g') {seeds seeds' : List Item}
  {it : Item} {items items' : ItemSet} {x : Symbol}

include h

theorem exists_brought (hmem : ∀ it ∈ seeds, it.production ∈ g.productions)
    (hseeds : Item.Covered live seeds seeds') (hit : g.Brought seeds it) :
    live it.production.lhs ∧ ∃ it', g'.Brought seeds' it' ∧ it'.core = it.core := by
  induction hit with
  | seed hit =>
    obtain ⟨hlive, it', hit', hcore⟩ := hseeds _ hit
    exact ⟨hlive, it', .seed hit', hcore⟩
  | @predict it p hit hnext hp ih =>
    obtain ⟨hlive, it', hit', hcore⟩ := ih
    have hp_live : live p.lhs :=
      h.forth.closed _ (hit.production_mem hmem) hlive _ (Item.next_mem_rhs hnext)
    obtain ⟨p', hp', hrule⟩ := h.forth.rules p hp hp_live
    have hnext' : it'.next = some (.nonterminal p'.lhs) := by
      rw [Item.next_eq_of_core hcore, hnext, (Prod.mk.inj hrule).1]
    exact ⟨hp_live, .start p', hit'.predict hnext' hp', by simp [Item.core, hrule]⟩

theorem initial_covered : Item.Covered live (Automaton.initial g) (Automaton.initial g') := by
  intro it hit
  have hseeds : Item.Covered live [.start g.goal] [.start g'.goal] := by
    intro it hit
    obtain rfl := List.mem_singleton.mp hit
    exact ⟨h.goal, _, List.mem_singleton_self _, by rw [h.goal_eq]⟩
  obtain ⟨hlive, it', hit', hcore⟩ :=
    h.exists_brought (by simpa using g.goal_mem) hseeds (mem_initial_iff.mp hit)
  exact ⟨hlive, it', mem_initial_iff.mpr hit', hcore⟩

theorem initial_alike : ItemSet.Alike live g g' (Automaton.initial g) (Automaton.initial g') :=
  ⟨g.closure_lists _, g'.closure_lists _, h.initial_covered, h.symm.initial_covered⟩

theorem goto_covered (hitems : ItemSet.Alike live g g' items items') (x : Symbol) :
    Item.Covered live (g.goto items x) (g'.goto items' x) := by
  intro jt hjt
  have hseeds : Item.Covered live
      (items.filterMap fun it => if it.next = some x then it.advance? else none)
      (items'.filterMap fun it => if it.next = some x then it.advance? else none) := by
    intro jt hjt
    obtain ⟨it, hit, hnext, hadv⟩ := Item.mem_advanced_iff.mp hjt
    obtain ⟨hlive, it', hit', hcore⟩ := hitems.covered it hit
    obtain ⟨jt', hadv', hcore'⟩ := Item.advance?_of_core hcore hadv
    exact ⟨(Item.advance?_eq_some_iff.mp hadv).1 ▸ hlive, jt', Item.mem_advanced_iff.mpr
      ⟨it', hit', (Item.next_eq_of_core hcore).trans hnext, hadv'⟩, hcore'⟩
  obtain ⟨hlive, jt', hjt', hcore⟩ :=
    h.exists_brought (production_mem_of_advanced hitems.lists.sublist) hseeds
      ((mem_goto_iff hitems.lists.sublist).mp hjt)
  exact ⟨hlive, jt', (mem_goto_iff hitems.lists'.sublist).mpr hjt', hcore⟩

theorem goto_alike (hitems : ItemSet.Alike live g g' items items') (x : Symbol) :
    ItemSet.Alike live g g' (g.goto items x) (g'.goto items' x) :=
  ⟨g.closure_lists _, g'.closure_lists _, h.goto_covered hitems x,
    h.symm.goto_covered hitems.symm x⟩

end Grammar.Shares

/-! ## The two searches -/

namespace Automaton

variable {live : String → Prop} {g g' : Grammar} {a a' : Automaton} {items items' : ItemSet}
  {states states' : List ItemSet} {successors : List Successors} {x : Symbol}

/-- Sets that are alike expect the same symbols, in the order of names. -/
theorem expected_alike (h : ItemSet.Alike live g g' items items') :
    expected g items = expected g' items' := by
  have hasymm : Std.Asymm fun x y : Symbol => x.name < y.name :=
    ⟨fun _ _ hlt => String.lt_asymm hlt⟩
  refine (g.alphabet_pairwise.filter _).eq_of_mem_iff (g'.alphabet_pairwise.filter _) fun x => ?_
  show x ∈ expected g items ↔ x ∈ expected g' items'
  rw [mem_expected_iff h.lists.sublist, mem_expected_iff h.lists'.sublist, h.exists_next_iff]

theorem findIdx?_alike (hstates : List.Forall₂ (ItemSet.Alike live g g') states states')
    (hitems : ItemSet.Alike live g g' items items') :
    states.findIdx? (· == items) = states'.findIdx? (· == items') := by
  induction hstates with
  | nil => rfl
  | @cons old old' _ _ hold _ ih =>
    have hbeq : (old == items) = (old' == items') := by
      rw [Bool.eq_iff_iff, beq_iff_eq, beq_iff_eq]
      exact hold.eq_iff hitems
    simp only [List.findIdx?_cons, hbeq, ih]

/-- Sets that are alike get the same number. -/
theorem intern_alike (hstates : List.Forall₂ (ItemSet.Alike live g g') states states')
    (hitems : ItemSet.Alike live g g' items items') :
    List.Forall₂ (ItemSet.Alike live g g') (intern states items).1 (intern states' items').1 ∧
      (intern states items).2 = (intern states' items').2 := by
  unfold intern
  rw [findIdx?_alike hstates hitems]
  cases states'.findIdx? (· == items') with
  | some i => exact ⟨hstates, rfl⟩
  | none => exact ⟨List.rel_append hstates (.cons hitems .nil), hstates.length_eq⟩

/-- The states and the entries of a row that two searches have at one moment. -/
structure SameSoFar (live : String → Prop) (g g' : Grammar)
    (known known' : List ItemSet × Successors) : Prop where
  states : List.Forall₂ (ItemSet.Alike live g g') known.1 known'.1
  row_eq : known.2 = known'.2

/-- Automata with the same edges, whose states are alike one by one. -/
structure Alike (live : String → Prop) (g g' : Grammar) (a a' : Automaton) : Prop where
  states : List.Forall₂ (ItemSet.Alike live g g') a.states a'.states
  successors_eq : a.successors = a'.successors

section

variable (h : g.Shares live g')

include h

theorem addSuccessor_same (hitems : ItemSet.Alike live g g' items items')
    {known known' : List ItemSet × Successors} (hknown : SameSoFar live g g' known known')
    (x : Symbol) :
    SameSoFar live g g' (addSuccessor g items known x) (addSuccessor g' items' known' x) := by
  obtain ⟨hstates, hnumber⟩ := intern_alike hknown.states (h.goto_alike hitems x)
  refine ⟨hstates, ?_⟩
  simp only [addSuccessor, hknown.row_eq, hnumber]

theorem foldl_same (hitems : ItemSet.Alike live g g' items items') (symbols : List Symbol)
    {known known' : List ItemSet × Successors} (hknown : SameSoFar live g g' known known') :
    SameSoFar live g g' (symbols.foldl (addSuccessor g items) known)
      (symbols.foldl (addSuccessor g' items') known') := by
  induction symbols generalizing known known' with
  | nil => exact hknown
  | cons x symbols ih => exact ih (addSuccessor_same h hitems hknown x)

theorem explore_alike (hstates : List.Forall₂ (ItemSet.Alike live g g') states states')
    (fuel : Nat) (successors : List Successors) :
    Alike live g g' (explore g fuel states successors) (explore g' fuel states' successors) := by
  induction fuel generalizing states states' successors with
  | zero => exact ⟨hstates, rfl⟩
  | succ fuel ih =>
    unfold explore
    obtain ⟨hlength, hget⟩ := List.forall₂_iff_get.mp hstates
    by_cases hlt : successors.length < states.length
    · have hlt' : successors.length < states'.length := hlength ▸ hlt
      have hitems : ItemSet.Alike live g g' states[successors.length] states'[successors.length] :=
        hget _ hlt hlt'
      have hstart : SameSoFar live g g' (states, []) (states', []) := ⟨hstates, rfl⟩
      have hrow := foldl_same h hitems (expected g states[successors.length]) hstart
      rw [List.getElem?_eq_getElem hlt, List.getElem?_eq_getElem hlt']
      simp only [← expected_alike hitems]
      rw [hrow.row_eq]
      exact ih hrow.states _
    · rw [List.getElem?_eq_none (by omega), List.getElem?_eq_none (by omega)]
      exact ⟨hstates, rfl⟩

/-- With enough steps for either search, the automaton of the second grammar is like that
of the first. -/
theorem build_alike : Alike live g g' (build g) (build g') := by
  let fuel := max (Nat.pow 2 g.items.length) (Nat.pow 2 g'.items.length)
  have hdone {g : Grammar} (hle : Nat.pow 2 g.items.length ≤ fuel) :
      explore g fuel [initial g] [] = build g :=
    explore_of_done hle (Nat.le_of_eq (build_canonical g).length_eq.symm)
  rw [← hdone (Nat.le_max_left _ _), ← hdone (Nat.le_max_right _ _)]
  exact explore_alike h (.cons h.initial_alike .nil) fuel []

end

/-! ## What is read off the automata -/

namespace Alike

variable (h : Alike live g g' a a')

include h

theorem size_eq : a.size = a'.size := h.states.length_eq

theorem successorsOf_eq (q : Nat) : a.successorsOf q = a'.successorsOf q := by
  rw [successorsOf, successorsOf, h.successors_eq]

theorem depths_eq : a.states.map depthOf = a'.states.map depthOf := by
  rw [← List.forall₂_eq_eq_eq, List.forall₂_map_left_iff, List.forall₂_map_right_iff]
  exact h.states.imp fun _ _ hitems => hitems.depthOf_eq

theorem searchLevel_eq (target : Int) (levels : Nat) (visited : List Nat) (trails : List Trail) :
    searchLevel a target levels visited trails = searchLevel a' target levels visited trails := by
  have hextend : a.extend = a'.extend := by
    funext t
    rw [extend, extend, h.successorsOf_eq]
  induction levels generalizing visited trails with
  | zero => rfl
  | succ levels ih => simp only [searchLevel, hextend, ih]

theorem path?_eq (target : Int) : a.path? target = a'.path? target := by
  rw [path?, path?, h.size_eq, h.searchLevel_eq]

theorem items_alike {q : Nat} (hq : q < a.size) :
    ItemSet.Alike live g g' (a.items q) (a'.items q) := by
  have hq' : q < a'.states.length := Nat.lt_of_lt_of_eq hq h.size_eq
  rw [items_eq (List.getElem?_eq_getElem hq), items_eq (List.getElem?_eq_getElem hq')]
  exact (List.forall₂_iff_get.mp h.states).2 q hq hq'

end Alike

end Automaton

end Slr
