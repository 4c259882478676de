import Mathlib.Data.List.Nodup
import Mathlib.Data.List.OfFn
import Slr.Automaton.Worklist
import Slr.Proofs.Automaton.Closure

/-! # Closures made with a stack

An item is taken from the stack, and if it is new it puts on it what it brings. Each item
is new once, so the stack is empty in the end; what was found then is closed, and in the
order of items it is the closure of the seeds. -/

namespace Slr

variable {g : Grammar} {seeds found stack : List Item} {it it' : Item}

/-! ## The order of items -/

/-- Strictly before another item, by production and then by place. -/
def Item.Below (it it' : Item) : Prop :=
  it.production.index < it'.production.index ∨
    it.production.index = it'.production.index ∧ it.dot < it'.dot

theorem Item.upTo_iff : it.upTo it' = true ↔ it.production.index < it'.production.index ∨
    it.production.index = it'.production.index ∧ it.dot ≤ it'.dot := by
  simp [Item.upTo]

theorem Item.Below.upTo (h : it.Below it') : it.upTo it' = true := by
  rw [Item.upTo_iff]
  exact h.imp id fun h => ⟨h.1, Nat.le_of_lt h.2⟩

instance : Std.Irrefl Item.Below where
  irrefl it h := by
    rcases h with h | ⟨-, h⟩
    · exact Nat.lt_irrefl _ h
    · exact Nat.lt_irrefl _ h

namespace Grammar

theorem productions_pairwise (g : Grammar) :
    g.productions.Pairwise fun p p' => p.index < p'.index := by
  have hindex := g.wellFormed.index_eq
  rw [← List.pairwise_map (f := Production.index), hindex]
  exact List.pairwise_lt_range

/-- The items of a grammar stand in their order, each once. -/
theorem items_pairwise (g : Grammar) : g.items.Pairwise Item.Below := by
  rw [items, List.pairwise_flatMap]
  constructor
  · intro p _
    rw [Item.ofProduction, List.pairwise_ofFn]
    intro i j hij
    exact .inr ⟨rfl, hij⟩
  · refine g.productions_pairwise.imp ?_
    intro p p' hlt it hit it' hit'
    rw [← Item.mem_ofProduction.mp hit, ← Item.mem_ofProduction.mp hit'] at hlt
    exact .inl hlt

/-- Different items that are the members of a closure are the closure when they are sorted. -/
theorem mergeSort_eq_closure (hnodup : found.Nodup)
    (hmem : ∀ it, it ∈ found ↔ it ∈ g.closure seeds) :
    found.mergeSort Item.upTo = g.closure seeds := by
  have hclosure := g.items_pairwise.sublist (g.closure_sublist seeds)
  have hperm : found.Perm (g.closure seeds) :=
    (List.perm_ext_iff_of_nodup hnodup hclosure.nodup).mpr hmem
  have hsorted : (found.mergeSort Item.upTo).Pairwise fun it it' => it.upTo it' = true := by
    refine List.pairwise_mergeSort ?_ ?_ found
    · intro a b c hab hbc
      rw [Item.upTo_iff] at hab hbc ⊢
      omega
    · intro a b
      rw [Bool.or_eq_true, Item.upTo_iff, Item.upTo_iff]
      omega
  refine List.Perm.eq_of_pairwise ?_ hsorted (hclosure.imp Item.Below.upTo)
    ((List.mergeSort_perm _ _).trans hperm)
  intro a b ha hb hab hba
  have ha : a ∈ g.items :=
    (g.closure_sublist seeds).subset ((hmem a).mp ((List.mergeSort_perm _ _).mem_iff.mp ha))
  have hb : b ∈ g.items := (g.closure_sublist seeds).subset hb
  rw [Item.upTo_iff] at hab hba
  have hproduction : a.production = b.production :=
    eq_of_index (mem_items.mp ha) (mem_items.mp hb) (by omega)
  exact Item.ext_of hproduction (by omega)

/-! ## The stack -/

theorem mem_stacked : it' ∈ g.stacked it ↔
    ∃ p ∈ g.productions, it.next = some (.nonterminal p.lhs) ∧ it' = .start p := by
  unfold stacked
  split
  · rename_i n hnext
    simp only [List.mem_reverse, List.mem_map, mem_productionsFor, hnext, Option.some.injEq,
      Symbol.nonterminal.injEq]
    constructor
    · rintro ⟨p, ⟨hp, rfl⟩, rfl⟩
      exact ⟨p, hp, rfl, rfl⟩
    · rintro ⟨p, hp, rfl, rfl⟩
      exact ⟨p, ⟨hp, rfl⟩, rfl⟩
  · rename_i hnext
    constructor
    · intro h
      cases h
    · rintro ⟨p, -, h, -⟩
      exact absurd h (hnext p.lhs)

/-- What was found and what is on the stack are brought by the seeds; a seed, or what an item
that was found brings, is among them. -/
structure Unstacking (g : Grammar) (seeds found stack : List Item) : Prop where
  nodup : found.Nodup
  brought : ∀ it, it ∈ found ∨ it ∈ stack → g.Brought seeds it
  seeds : ∀ it ∈ seeds, it ∈ found ∨ it ∈ stack
  closed : ∀ it ∈ found, ∀ it' ∈ g.stacked it, it' ∈ found ∨ it' ∈ stack

namespace Unstacking

theorem drop (h : Unstacking g seeds found (it :: stack)) (hit : it ∈ found) :
    Unstacking g seeds found stack := by
  have hkeep {it' : Item} (hit' : it' ∈ found ∨ it' ∈ it :: stack) :
      it' ∈ found ∨ it' ∈ stack := by
    rcases hit' with hit' | hit'
    · exact .inl hit'
    · rcases List.mem_cons.mp hit' with rfl | hit'
      · exact .inl hit
      · exact .inr hit'
  exact ⟨h.nodup, fun it' hit' => h.brought it' (hit'.imp id (List.mem_cons_of_mem _)),
    fun it' hit' => hkeep (h.seeds it' hit'),
    fun it' hit' it'' hit'' => hkeep (h.closed it' hit' it'' hit'')⟩

theorem take (h : Unstacking g seeds found (it :: stack)) (hit : it ∉ found) :
    Unstacking g seeds (found ++ [it]) (g.stacked it ++ stack) := by
  have hkeep {it' : Item} (hit' : it' ∈ found ∨ it' ∈ it :: stack) :
      it' ∈ found ++ [it] ∨ it' ∈ g.stacked it ++ stack := by
    simp only [List.mem_append, List.mem_cons] at hit' ⊢
    tauto
  have hbrought : g.Brought seeds it := h.brought it (.inr List.mem_cons_self)
  constructor
  · exact List.nodup_append.mpr ⟨h.nodup, by simp, by rintro a ha b hb rfl; simp_all⟩
  · intro it' hit'
    simp only [List.mem_append, List.mem_singleton] at hit'
    rcases hit' with (hit' | rfl) | hit' | hit'
    · exact h.brought it' (.inl hit')
    · exact hbrought
    · obtain ⟨p, hp, hnext, rfl⟩ := mem_stacked.mp hit'
      exact hbrought.predict hnext hp
    · exact h.brought it' (.inr (List.mem_cons_of_mem _ hit'))
  · exact fun it' hit' => hkeep (h.seeds it' hit')
  · intro it' hit' it'' hit''
    rcases List.mem_append.mp hit' with hit' | hit'
    · exact hkeep (h.closed it' hit' it'' hit'')
    · obtain rfl := List.mem_singleton.mp hit'
      exact .inr (List.mem_append_left _ hit'')

/-- When the stack is empty everything that the seeds bring has been found. -/
theorem mem_found_iff (h : Unstacking g seeds found []) : it ∈ found ↔ g.Brought seeds it := by
  have hfound {it : Item} (hit : it ∈ found ∨ it ∈ []) : it ∈ found :=
    hit.resolve_right (by simp)
  constructor
  · exact fun hit => h.brought it (.inl hit)
  · intro hit
    induction hit with
    | seed hseed => exact hfound (h.seeds _ hseed)
    | predict _ hnext hp ih =>
      exact hfound (h.closed _ ih _ (mem_stacked.mpr ⟨_, hp, hnext, rfl⟩))

theorem length_le (h : Unstacking g seeds found stack)
    (hseeds : ∀ it ∈ seeds, it.production ∈ g.productions) : found.length ≤ g.items.length := by
  have hsub : found ⊆ g.items := fun it hit =>
    mem_items.mpr ((h.brought it (.inl hit)).production_mem hseeds)
  exact (List.subperm_of_subset h.nodup hsub).length_le

end Unstacking

/-- The stack gets empty. -/
theorem exists_unstack (hseeds : ∀ it ∈ seeds, it.production ∈ g.productions)
    (found stack : List Item) (h : Unstacking g seeds found stack) :
    ∃ steps found', (∀ n, steps ≤ n → g.unstack n found stack = some found') ∧
      Unstacking g seeds found' [] := by
  match stack with
  | [] => exact ⟨0, found, fun n _ => by cases n <;> rfl, h⟩
  | it :: stack =>
    have hmore {steps : Nat} {found' found'' stack' : List Item}
        (hstep : ∀ n, g.unstack (n + 1) found (it :: stack) = g.unstack n found'' stack')
        (hrest : ∀ n, steps ≤ n → g.unstack n found'' stack' = some found') (n : Nat)
        (hn : steps + 1 ≤ n) : g.unstack n found (it :: stack) = some found' := by
      obtain ⟨n, rfl⟩ := Nat.exists_eq_add_of_le' (Nat.le_of_add_left_le hn)
      rw [hstep]
      exact hrest n (by omega)
    -- the stack gets shorter, or what was found gets longer, and that has a bound
    by_cases hit : it ∈ found
    · obtain ⟨steps, found', hrest, hdone⟩ := exists_unstack hseeds found stack (h.drop hit)
      exact ⟨steps + 1, found', hmore (fun n => by rw [unstack, if_pos hit]) hrest, hdone⟩
    · have hlt : found.length < g.items.length := by
        have hle := (h.take hit).length_le hseeds
        rwa [List.length_append] at hle
      obtain ⟨steps, found', hrest, hdone⟩ :=
        exists_unstack hseeds (found ++ [it]) (g.stacked it ++ stack) (h.take hit)
      exact ⟨steps + 1, found', hmore (fun n => by rw [unstack, if_neg hit]) hrest, hdone⟩
termination_by (g.items.length - found.length, stack.length)
decreasing_by
  · exact Prod.Lex.right _ (Nat.lt_succ_self _)
  · refine Prod.Lex.left _ _ ?_
    rw [List.length_append, List.length_singleton]
    omega

/-- Enough steps make the closure. -/
theorem exists_closureBy (hseeds : ∀ it ∈ seeds, it.production ∈ g.productions) :
    ∃ steps, ∀ n, steps ≤ n → g.closureBy n seeds = some (g.closure seeds) := by
  have hstart : Unstacking g seeds [] seeds.reverse :=
    ⟨.nil, fun it hit => .seed (by simpa using hit), by simp, by simp⟩
  obtain ⟨steps, found, hrun, hdone⟩ := exists_unstack hseeds [] seeds.reverse hstart
  refine ⟨steps, fun n hn => ?_⟩
  rw [closureBy, hrun n hn, Option.map_some]
  congr 1
  refine mergeSort_eq_closure hdone.nodup ?_
  intro it
  rw [hdone.mem_found_iff, mem_closure_iff hseeds]

end Grammar

end Slr
