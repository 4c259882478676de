import Mathlib.Data.List.Sublists
import Slr.Proofs.Association
import Slr.Proofs.Automaton.Closure

/-! # The automaton that `build` makes

Every state has a row with one entry for each symbol that it expects, and each
entry leads to the closure of what the state has behind the symbol. The states
are different sets of items, so there are no more than subsets of the items, and
the search takes up each of them; every state lies at the end of a way from
state 0. -/

namespace Slr.Automaton

variable {g : Grammar} {a : Automaton} {q r : Nat} {qs rs : List Nat} {x : Symbol}
  {xs : List Symbol}

/-- States, the last first, lie on the way from state 0 along symbols, the last first. -/
inductive Spells (a : Automaton) : List Nat → List Symbol → Prop
  | bottom : Spells a [0] []
  | push {q r : Nat} {qs : List Nat} {x : Symbol} {xs : List Symbol}
      (way : Spells a (q :: qs) xs) (edge : (a.successorsOf q).lookup x = some r) :
      Spells a (r :: q :: qs) (x :: xs)

theorem Spells.length (h : Spells a qs xs) : qs.length = xs.length + 1 := by
  induction h with
  | bottom => rfl
  | push _ _ ih => simpa using ih

/-- The way without its last symbols. -/
theorem Spells.drop (h : Spells a qs xs) {n : Nat} (hn : n ≤ xs.length) :
    Spells a (qs.drop n) (xs.drop n) := by
  induction h generalizing n with
  | bottom =>
    obtain rfl : n = 0 := by simpa using hn
    exact .bottom
  | push way edge ih =>
    cases n with
    | zero => exact way.push edge
    | succ n => exact ih (by simpa using hn)

/-- Symbols lead to one state. -/
theorem Spells.unique (h : Spells a qs xs) (h' : Spells a rs xs) : qs = rs := by
  induction h generalizing rs with
  | bottom =>
    cases h'
    rfl
  | push way edge ih =>
    cases h' with
    | push way' edge' =>
      obtain ⟨rfl, rfl⟩ := List.cons.inj (ih way')
      rw [edge] at edge'
      rw [Option.some.inj edge']

/-- A row has one entry for each symbol that a set of items expects, to where the
set leads. -/
structure RowOf (g : Grammar) (states : List ItemSet) (items : ItemSet) (row : Successors) :
    Prop where
  keys : row.map Prod.fst = expected g items
  leads : ∀ x r, (x, r) ∈ row → states[r]? = some (g.goto items x)

/-- What `build` makes of a grammar. -/
structure Canonical (g : Grammar) (a : Automaton) : Prop where
  grammar_eq : a.grammar = g
  initial_eq : a.states[0]? = some (initial g)
  nodup : a.states.Nodup
  sublist : ∀ items ∈ a.states, List.Sublist items g.items
  length_eq : a.successors.length = a.states.length
  row : ∀ (q : Nat) (items : ItemSet), a.states[q]? = some items →
    ∃ row, a.successors[q]? = some row ∧ RowOf g a.states items row
  reached : ∀ q : Nat, q < a.states.length → ∃ qs xs, Spells a (q :: qs) xs

/-- A set of items expects what stands next in one of them. -/
theorem mem_expected_iff {items : ItemSet} (hitems : List.Sublist items g.items) :
    x ∈ expected g items ↔ x ≠ .terminal endName ∧ ∃ it ∈ items, it.next = some x := by
  simp only [expected, List.mem_filter, Bool.and_eq_true, bne_iff_ne, List.any_eq_true, beq_iff_eq]
  constructor
  · intro h
    exact h.2
  · intro h
    obtain ⟨it, hit, hnext⟩ := h.2
    exact ⟨Grammar.mem_alphabet_of_mem_rhs (Grammar.production_mem_of_sublist hitems hit)
      (Item.next_mem_rhs hnext), h⟩

/-! ## Interning -/

theorem getElem?_of_initial {α : Type} {l m : List α} (h : l <+: m) {i : Nat} {b : α}
    (hi : l[i]? = some b) : m[i]? = some b := by
  obtain ⟨t, rfl⟩ := h
  exact List.getElem?_append_left (List.getElem?_eq_some_iff.mp hi).1 ▸ hi

theorem intern_spec {states states' : List ItemSet} {items : ItemSet} {i : Nat}
    (h : intern states items = (states', i)) :
    states <+: states' ∧ states'[i]? = some items ∧ (states.Nodup → states'.Nodup) ∧
      (∀ s ∈ states', s ∈ states ∨ s = items) ∧
      ∀ j, states.length ≤ j → j < states'.length → j = i := by
  unfold intern at h
  cases hf : states.findIdx? (· == items) with
  | some k =>
    simp only [hf, Prod.mk.injEq] at h
    obtain ⟨rfl, rfl⟩ := h
    obtain ⟨hlt, heq, -⟩ := List.findIdx?_eq_some_iff_getElem.mp hf
    refine ⟨List.prefix_refl _, ?_, fun h => h, fun s hs => Or.inl hs, fun j h₁ h₂ => by omega⟩
    rw [List.getElem?_eq_getElem hlt, beq_iff_eq.mp heq]
  | none =>
    simp only [hf, Prod.mk.injEq] at h
    obtain ⟨rfl, rfl⟩ := h
    have hnew : items ∉ states := by
      intro hmem
      have hne := List.findIdx?_eq_none_iff.mp hf items hmem
      simp at hne
    refine ⟨List.prefix_append _ _, by simp, ?_, fun s hs => by simpa using hs,
      fun j h₁ h₂ => by simp at h₂; omega⟩
    intro h
    refine List.nodup_append.mpr ⟨h, by simp, ?_⟩
    intro s hs t ht hst
    obtain rfl := List.mem_singleton.mp ht
    exact hnew (hst ▸ hs)

/-! ## One row -/

/-- What the states are after the first entries of a row: the old ones stay where
they are, and each new one is the target of an entry. -/
structure Extends (g : Grammar) (items : ItemSet) (states : List ItemSet)
    (known : List ItemSet × Successors) : Prop where
  old : states <+: known.1
  nodup : known.1.Nodup
  sublist : ∀ s ∈ known.1, List.Sublist s g.items
  leads : ∀ x r, (x, r) ∈ known.2 → known.1[r]? = some (g.goto items x)
  entry : ∀ j, states.length ≤ j → j < known.1.length → ∃ x, (x, j) ∈ known.2

theorem addSuccessor_extends {items : ItemSet} {states : List ItemSet}
    {known : List ItemSet × Successors} (h : Extends g items states known) (x : Symbol) :
    Extends g items states (addSuccessor g items known x) ∧
      (addSuccessor g items known x).2.map Prod.fst = known.2.map Prod.fst ++ [x] := by
  rcases hi : intern known.1 (g.goto items x) with ⟨states', i⟩
  obtain ⟨hold, hget, hnodup, hmem, hnew⟩ := intern_spec hi
  simp only [addSuccessor, hi]
  refine ⟨⟨h.old.trans hold, hnodup h.nodup, ?_, ?_, ?_⟩, by simp⟩
  · intro s hs
    rcases hmem s hs with hs | rfl
    · exact h.sublist s hs
    · exact g.closure_sublist _
  · intro y r hyr
    rcases List.mem_append.mp hyr with hyr | hyr
    · exact getElem?_of_initial hold (h.leads y r hyr)
    · obtain ⟨rfl, rfl⟩ : y = x ∧ r = i := by simpa using hyr
      exact hget
  · intro j h₁ h₂
    by_cases hj : j < known.1.length
    · obtain ⟨y, hy⟩ := h.entry j h₁ hj
      exact ⟨y, List.mem_append_left _ hy⟩
    · obtain rfl := hnew j (by omega) h₂
      exact ⟨x, by simp⟩

theorem foldl_extends {items : ItemSet} {states : List ItemSet} (symbols : List Symbol)
    {known : List ItemSet × Successors} (h : Extends g items states known) :
    Extends g items states (symbols.foldl (addSuccessor g items) known) ∧
      (symbols.foldl (addSuccessor g items) known).2.map Prod.fst =
        known.2.map Prod.fst ++ symbols := by
  induction symbols generalizing known with
  | nil => exact ⟨h, by simp⟩
  | cons x symbols ih =>
    obtain ⟨hx, hkeys⟩ := addSuccessor_extends h x
    obtain ⟨hrest, hall⟩ := ih hx
    refine ⟨hrest, ?_⟩
    rw [List.foldl_cons, hall, hkeys, List.append_assoc]
    rfl

/-! ## The search -/

/-- The search so far: the states that have been taken up have their rows, and
all states that were met are reached through these rows. -/
structure Explored (g : Grammar) (states : List ItemSet) (successors : List Successors) :
    Prop where
  initial_eq : states[0]? = some (initial g)
  nodup : states.Nodup
  sublist : ∀ items ∈ states, List.Sublist items g.items
  length_le : successors.length ≤ states.length
  row : ∀ (q : Nat) (row : Successors), successors[q]? = some row →
    ∃ items, states[q]? = some items ∧ RowOf g states items row
  reached : ∀ q : Nat, q < states.length → ∃ qs xs, Spells ⟨g, states, successors⟩ (q :: qs) xs

theorem explored_initial (g : Grammar) : Explored g [initial g] [] where
  initial_eq := rfl
  nodup := by simp
  sublist := fun items h => by
    obtain rfl := List.mem_singleton.mp h
    exact g.closure_sublist _
  length_le := by simp
  row := fun q row h => by simp at h
  reached := fun q h => by
    obtain rfl : q = 0 := by simpa using h
    exact ⟨[], [], .bottom⟩

/-- Later rows and states leave the ways as they are. -/
theorem Spells.extend {states states' : List ItemSet} {successors : List Successors}
    {row : Successors} (h : Spells ⟨g, states, successors⟩ qs xs) :
    Spells ⟨g, states', successors ++ [row]⟩ qs xs := by
  induction h with
  | bottom => exact .bottom
  | @push q r qs x xs way edge ih =>
    refine ih.push ?_
    unfold successorsOf at edge ⊢
    cases hq : successors[q]? with
    | none => simp [hq] at edge
    | some old =>
      rw [hq] at edge
      simp only at edge ⊢
      rw [List.getElem?_append_left (List.getElem?_eq_some_iff.mp hq).1, hq]
      exact edge

/-- A symbol finds the state its entries lead to. -/
theorem RowOf.lookup_of_mem {states : List ItemSet} {items : ItemSet} {row : Successors}
    (h : RowOf g states items row) (hnodup : states.Nodup) (hr : (x, r) ∈ row) :
    row.lookup x = some r := by
  obtain ⟨s, hs⟩ := Association.exists_lookup hr
  have hsx := h.leads x s (Association.mem_of_lookup hs)
  have hrx := h.leads x r hr
  obtain ⟨hlt, -⟩ := List.getElem?_eq_some_iff.mp hsx
  rw [hs, (List.getElem?_inj hlt hnodup).mp (hsx.trans hrx.symm)]

theorem explored_step {states : List ItemSet} {successors : List Successors} {items : ItemSet}
    (h : Explored g states successors) (hitems : states[successors.length]? = some items)
    {known : List ItemSet × Successors}
    (hknown : (expected g items).foldl (addSuccessor g items) (states, []) = known) :
    Explored g known.1 (successors ++ [known.2]) := by
  have hstart : Extends g items states (states, []) :=
    ⟨List.prefix_refl _, h.nodup, h.sublist, by simp, fun j h₁ h₂ => by simp at h₁ h₂; omega⟩
  obtain ⟨hext, hkeys⟩ := foldl_extends (expected g items) hstart
  rw [hknown] at hext hkeys
  have hlt := (List.getElem?_eq_some_iff.mp hitems).1
  have hrow : RowOf g known.1 items known.2 := ⟨by simpa using hkeys, hext.leads⟩
  refine ⟨getElem?_of_initial hext.old h.initial_eq, hext.nodup, hext.sublist, ?_, ?_, ?_⟩
  · have hle := hext.old.length_le
    simp only [List.length_append, List.length_singleton]
    omega
  · intro q row hq
    by_cases hql : q < successors.length
    · rw [List.getElem?_append_left hql] at hq
      obtain ⟨old, hold, hr⟩ := h.row q row hq
      exact ⟨old, getElem?_of_initial hext.old hold, hr.keys,
        fun x r hxr => getElem?_of_initial hext.old (hr.leads x r hxr)⟩
    · obtain rfl : q = successors.length := by
        have hb := (List.getElem?_eq_some_iff.mp hq).1
        simp at hb
        omega
      obtain rfl : known.2 = row := by simpa using hq
      exact ⟨items, getElem?_of_initial hext.old hitems, hrow⟩
  · intro q hq
    by_cases hold : q < states.length
    · obtain ⟨qs, xs, hway⟩ := h.reached q hold
      exact ⟨qs, xs, hway.extend⟩
    · obtain ⟨x, hx⟩ := hext.entry q (by omega) hq
      obtain ⟨qs, xs, hway⟩ := h.reached successors.length hlt
      refine ⟨_, x :: xs, hway.extend.push ?_⟩
      simp only [successorsOf, List.getElem?_concat_length, Option.getD_some]
      exact hrow.lookup_of_mem hext.nodup hx

/-- Different sets of items of a grammar are no more than all its sets of items. -/
theorem Explored.length_states_le {states : List ItemSet} {successors : List Successors}
    (h : Explored g states successors) : states.length ≤ Nat.pow 2 g.items.length := by
  have hsub : states ⊆ g.items.sublists := fun s hs => List.mem_sublists.mpr (h.sublist s hs)
  have hle := (List.subperm_of_subset h.nodup hsub).length_le
  rwa [List.length_sublists] at hle

theorem Explored.canonical {states : List ItemSet} {successors : List Successors}
    (h : Explored g states successors) (hall : states.length ≤ successors.length) :
    Canonical g ⟨g, states, successors⟩ where
  grammar_eq := rfl
  initial_eq := h.initial_eq
  nodup := h.nodup
  sublist := h.sublist
  length_eq := Nat.le_antisymm h.length_le hall
  row := fun q items hq => by
    have hlt : q < successors.length :=
      Nat.lt_of_lt_of_le (List.getElem?_eq_some_iff.mp hq).1 hall
    obtain ⟨items', hitems', hrow⟩ := h.row q _ (List.getElem?_eq_getElem hlt)
    obtain rfl : items' = items := Option.some.inj (hitems'.symm.trans hq)
    exact ⟨_, List.getElem?_eq_getElem hlt, hrow⟩
  reached := h.reached

/-- A search that is done is done with more steps too. -/
theorem explore_of_done {fuel fuel' : Nat} {states : List ItemSet} {successors : List Successors}
    (hle : fuel ≤ fuel')
    (hdone : (explore g fuel states successors).states.length ≤
      (explore g fuel states successors).successors.length) :
    explore g fuel' states successors = explore g fuel states successors := by
  induction fuel generalizing fuel' states successors with
  | zero =>
    have hnone : states[successors.length]? = none := List.getElem?_eq_none_iff.mpr hdone
    cases fuel' with
    | zero => rfl
    | succ fuel' => simp only [explore, hnone]
  | succ fuel ih =>
    obtain ⟨fuel', rfl⟩ : ∃ n, fuel' = n + 1 := Nat.exists_eq_succ_of_ne_zero (by omega)
    simp only [explore] at hdone ⊢
    cases hnext : states[successors.length]? with
    | none => rfl
    | some items =>
      rw [hnext] at hdone
      exact ih (Nat.le_of_succ_le_succ hle) hdone

theorem explore_canonical {fuel : Nat} {states : List ItemSet} {successors : List Successors}
    (h : Explored g states successors)
    (hfuel : Nat.pow 2 g.items.length ≤ fuel + successors.length) :
    Canonical g (explore g fuel states successors) := by
  induction fuel generalizing states successors with
  | zero =>
    have hle := h.length_states_le
    exact h.canonical (by omega)
  | succ fuel ih =>
    unfold explore
    cases hnext : states[successors.length]? with
    | none => exact h.canonical (List.getElem?_eq_none_iff.mp hnext)
    | some items =>
      refine ih (explored_step h hnext rfl) ?_
      simp only [List.length_append, List.length_singleton]
      omega

theorem build_canonical (g : Grammar) : Canonical g (build g) :=
  explore_canonical (explored_initial g) (by simp)

end Slr.Automaton
