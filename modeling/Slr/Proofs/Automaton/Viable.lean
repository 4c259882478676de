import Slr.Proofs.Automaton.States

/-! # Valid items

An item is valid for the symbols of a stack if it is the goal's first item and
there are none, if a valid item predicts it, or if it advanced over the last of
them. A state of the automaton holds exactly the items that are valid for the
symbols on the way to it. What an item has seen is therefore on top of the
stack, and where it began some item expects its left hand side. -/

namespace Slr

/-- Items that fit the symbols of a stack, the last first. -/
inductive ValidItem (g : Grammar) : List Symbol → Item → Prop
  | goal : ValidItem g [] (.start g.goal)
  | predict {xs : List Symbol} {it : Item} {p : Production} (h : ValidItem g xs it)
      (hnext : it.next = some (.nonterminal p.lhs)) (hp : p ∈ g.productions) :
      ValidItem g xs (.start p)
  | advance {xs : List Symbol} {it it' : Item} {x : Symbol} (h : ValidItem g xs it)
      (hnext : it.next = some x) (hx : x ≠ .terminal endName) (hadv : it.advance? = some it') :
      ValidItem g (x :: xs) it'

namespace ValidItem

variable {g : Grammar} {xs : List Symbol} {it : Item} {p : Production}

theorem production_mem (h : ValidItem g xs it) : it.production ∈ g.productions := by
  induction h with
  | goal => exact g.goal_mem
  | predict _ _ hp => exact hp
  | advance _ _ _ hadv ih => rwa [(Item.advance?_eq_some_iff.mp hadv).1]

theorem end_not_mem (h : ValidItem g xs it) : .terminal endName ∉ xs := by
  induction h with
  | goal => simp
  | predict _ _ _ ih => exact ih
  | advance _ _ hx _ ih => simp [ih, Ne.symm hx]

/-- What an item has seen is on top of the stack, and below it the item's production began. -/
theorem handle (h : ValidItem g xs it) :
    ∃ ys, xs = (it.production.rhs.take it.dot).reverse ++ ys ∧ ValidItem g ys (.start it.production) := by
  induction h with
  | goal => exact ⟨[], by simp, .goal⟩
  | @predict xs it p h hnext hp ih => exact ⟨xs, by simp, h.predict hnext hp⟩
  | advance h hnext hx hadv ih =>
    obtain ⟨ys, rfl, hstart⟩ := ih
    refine ⟨ys, by simp [Item.take_of_advance hnext hadv], ?_⟩
    rwa [(Item.advance?_eq_some_iff.mp hadv).1]

/-- A production begins where some item expects its left hand side; only the goal begins unasked. -/
theorem parent (h : ValidItem g xs (.start p)) :
    (p = g.goal ∧ xs = []) ∨ ∃ it, ValidItem g xs it ∧ it.next = some (.nonterminal p.lhs) := by
  generalize hs : Item.start p = it at h
  cases h with
  | goal => exact Or.inl ⟨congrArg Item.production hs, rfl⟩
  | predict h hnext hp =>
    obtain rfl : p = _ := congrArg Item.production hs
    exact Or.inr ⟨_, h, hnext⟩
  | advance h hnext hx hadv =>
    have hdot := (Item.advance?_eq_some_iff.mp hadv).2
    rw [← hs] at hdot
    simp at hdot

/-- The goal's production is never seen to its end, which is the end of the input. -/
theorem production_ne_goal (h : ValidItem g xs it) (hnone : it.next = none) :
    it.production ≠ g.goal := by
  intro hgoal
  obtain ⟨ys, hxs, -⟩ := h.handle
  rw [Item.next_eq_none_iff.mp hnone, List.take_length, hgoal] at hxs
  exact h.end_not_mem (by simp [hxs, Grammar.goal, Production.goal])

theorem goal_of_next_end (h : ValidItem g xs it) (hend : it.next = some (.terminal endName)) :
    it.production = g.goal ∧ it.dot = 1 := by
  have hgoal : it.production = g.goal :=
    Grammar.eq_goal_of_end_mem h.production_mem (Item.next_mem_rhs hend)
  have hlt : it.dot < 2 := by
    have hlt := Item.dot_lt_of_next hend
    rwa [hgoal] at hlt
  have hne : it.dot ≠ 0 := by
    intro hzero
    rw [Item.next, hgoal, hzero] at hend
    simp [Grammar.goal, Production.goal] at hend
  exact ⟨hgoal, by omega⟩

/-- An item before the end of the input has seen the start symbol, which is all
there is, unless the goal starts with itself. -/
theorem start_of_next_end (h : ValidItem g xs it) (hend : it.next = some (.terminal endName)) :
    ∃ ys, xs = .nonterminal g.start :: ys ∧ (ys = [] ∨ g.start = goalName) := by
  obtain ⟨hgoal, hdot⟩ := h.goal_of_next_end hend
  obtain ⟨ys, hxs, hstart⟩ := h.handle
  rw [hgoal] at hxs hstart
  refine ⟨ys, by simpa [hdot, Grammar.goal, Production.goal] using hxs, ?_⟩
  rcases hstart.parent with ⟨-, rfl⟩ | ⟨it', h', hnext⟩
  · exact Or.inl rfl
  · exact Or.inr (Grammar.start_eq_goalName_of_mem_rhs h'.production_mem (Item.next_mem_rhs hnext))

end ValidItem

/-! ## States hold the valid items -/

namespace Automaton

variable {g : Grammar} {a : Automaton} {q r : Nat} {qs : List Nat} {x : Symbol}
  {xs : List Symbol} {it : Item}

theorem validItem_nil_iff : ValidItem g [] it ↔ g.Brought [.start g.goal] it := by
  constructor
  · intro h
    generalize hxs : ([] : List Symbol) = xs at h
    induction h with
    | goal => exact .seed (by simp)
    | predict _ hnext hp ih => exact .predict (ih hxs) hnext hp
    | advance => cases hxs
  · intro h
    induction h with
    | seed h =>
      obtain rfl := List.mem_singleton.mp h
      exact .goal
    | predict _ hnext hp ih => exact ih.predict hnext hp

theorem validItem_cons_iff {items : ItemSet} (hitems : ∀ it, it ∈ items ↔ ValidItem g xs it)
    (hx : x ≠ .terminal endName) :
    ValidItem g (x :: xs) it ↔
      g.Brought (items.filterMap fun it => if it.next = some x then it.advance? else none) it := by
  constructor
  · intro h
    generalize hzs : x :: xs = zs at h
    induction h with
    | goal => cases hzs
    | predict _ hnext hp ih => exact .predict (ih hzs) hnext hp
    | advance h hnext _ hadv =>
      obtain ⟨rfl, rfl⟩ := List.cons.inj hzs
      exact .seed (Item.mem_advanced_iff.mpr ⟨_, (hitems _).mpr h, hnext, hadv⟩)
  · intro h
    induction h with
    | seed h =>
      obtain ⟨it, hit, hnext, hadv⟩ := Item.mem_advanced_iff.mp h
      exact ((hitems it).mp hit).advance hnext hx hadv
    | predict _ hnext hp ih => exact ih.predict hnext hp

theorem items_eq {items : ItemSet} (h : a.states[q]? = some items) : a.items q = items := by
  simp [Automaton.items, h]

theorem lt_of_mem_items (h : it ∈ a.items q) : q < a.states.length := by
  unfold Automaton.items at h
  cases hq : a.states[q]? with
  | none => simp [hq] at h
  | some items => exact (List.getElem?_eq_some_iff.mp hq).1

namespace Canonical

variable (h : Canonical g a)

include h

theorem row_of_lt (hq : q < a.states.length) : RowOf g a.states (a.items q) (a.successorsOf q) := by
  obtain ⟨row, hrow, hrowOf⟩ := h.row q _ (List.getElem?_eq_getElem hq)
  rw [items_eq (List.getElem?_eq_getElem hq), successorsOf, hrow]
  exact hrowOf

theorem rowOf_of_getElem? {row : Successors} (hq : a.successors[q]? = some row) :
    RowOf g a.states (a.items q) row := by
  have hlt := (List.getElem?_eq_some_iff.mp hq).1
  have hrow := h.row_of_lt (h.length_eq ▸ hlt)
  rwa [successorsOf, hq, Option.getD_some] at hrow

theorem successorsOf_of_le (hq : a.states.length ≤ q) : a.successorsOf q = [] := by
  have hnone : a.successors[q]? = none := List.getElem?_eq_none_iff.mpr (h.length_eq ▸ hq)
  simp [successorsOf, hnone]

theorem sublist_items (hq : q < a.states.length) : List.Sublist (a.items q) g.items := by
  rw [items_eq (List.getElem?_eq_getElem hq)]
  exact h.sublist _ (List.getElem_mem hq)

/-- An edge leads over a symbol that is not the end of the input, to the closure behind it. -/
theorem edge_spec (edge : (a.successorsOf q).lookup x = some r) :
    q < a.states.length ∧ x ≠ .terminal endName ∧ (∃ it ∈ a.items q, it.next = some x) ∧
      a.states[r]? = some (g.goto (a.items q) x) := by
  have hmem := Association.mem_of_lookup edge
  have hq : q < a.states.length := by
    by_contra hge
    simp [h.successorsOf_of_le (Nat.le_of_not_lt hge)] at hmem
  have hrow := h.row_of_lt hq
  have hkey : x ∈ expected g (a.items q) := by
    rw [← hrow.keys]
    exact List.mem_map.mpr ⟨(x, r), hmem, rfl⟩
  obtain ⟨hx, hnext⟩ := (mem_expected_iff (h.sublist_items hq)).mp hkey
  exact ⟨hq, hx, hnext, hrow.leads x r hmem⟩

/-- A state has an edge over every symbol that one of its items expects. -/
theorem exists_edge (hit : it ∈ a.items q) (hnext : it.next = some x)
    (hx : x ≠ .terminal endName) : ∃ r, (a.successorsOf q).lookup x = some r := by
  have hq := lt_of_mem_items hit
  have hkey : x ∈ expected g (a.items q) :=
    (mem_expected_iff (h.sublist_items hq)).mpr ⟨hx, it, hit, hnext⟩
  rw [← (h.row_of_lt hq).keys] at hkey
  obtain ⟨⟨y, r⟩, hr, rfl⟩ := List.mem_map.mp hkey
  exact Association.exists_lookup hr

/-- A state holds the items that are valid for the symbols on a way to it. -/
theorem mem_items_iff (way : Spells a (q :: qs) xs) : it ∈ a.items q ↔ ValidItem g xs it := by
  generalize hqs : q :: qs = all at way
  induction way generalizing q qs it with
  | bottom =>
    obtain ⟨rfl, rfl⟩ := List.cons.inj hqs
    rw [items_eq h.initial_eq, Grammar.mem_initial_iff, validItem_nil_iff]
  | @push q' r qs' x xs way edge ih =>
    obtain ⟨rfl, rfl⟩ := List.cons.inj hqs
    obtain ⟨hlt, hx, -, hstate⟩ := h.edge_spec edge
    rw [items_eq hstate, Grammar.mem_goto_iff (h.sublist_items hlt), validItem_cons_iff (fun _ => ih rfl) hx]

/-- An item at its end has its right hand side on top, and below it is a state
with an edge over its left hand side. -/
theorem exists_goto (way : Spells a (q :: qs) xs) (hit : it ∈ a.items q) (hnext : it.next = none) :
    ∃ ys q' qs' r, xs = it.production.rhs.reverse ++ ys ∧
      (q :: qs).drop it.production.size = q' :: qs' ∧ Spells a (q' :: qs') ys ∧
      (a.successorsOf q').lookup (.nonterminal it.production.lhs) = some r := by
  have hvalid := (h.mem_items_iff way).mp hit
  obtain ⟨ys, rfl, hstart⟩ := hvalid.handle
  rw [Item.next_eq_none_iff.mp hnext, List.take_length] at way ⊢
  have hsize : it.production.rhs.reverse.length = it.production.size := by simp [Production.size]
  have hbelow := way.drop (n := it.production.size) (by simp [Production.size])
  rw [List.drop_left' hsize] at hbelow
  obtain ⟨it', hvalid', hnext'⟩ :=
    hstart.parent.resolve_left fun hgoal => hvalid.production_ne_goal hnext hgoal.1
  cases hdrop : (q :: qs).drop it.production.size with
  | nil =>
    rw [hdrop] at hbelow
    cases hbelow.length
  | cons q' qs' =>
    rw [hdrop] at hbelow
    obtain ⟨r, edge⟩ := h.exists_edge ((h.mem_items_iff hbelow).mpr hvalid') hnext' (by simp)
    exact ⟨ys, q', qs', r, rfl, rfl, hbelow, edge⟩

/-- Every state on a way holds some item. -/
theorem exists_item (way : Spells a (q :: qs) xs) : ∃ it, it ∈ a.items q := by
  cases way with
  | bottom => exact ⟨.start g.goal, (h.mem_items_iff .bottom).mpr .goal⟩
  | push way edge =>
    obtain ⟨-, hx, ⟨it, hit, hnext⟩, -⟩ := h.edge_spec edge
    obtain ⟨it', hadv⟩ := Item.exists_advance hnext
    exact ⟨it', (h.mem_items_iff (way.push edge)).mpr
      (((h.mem_items_iff way).mp hit).advance hnext hx hadv)⟩

end Canonical

end Automaton

end Slr
