import Slr.Proofs.Automaton.Prefixes
import Slr.Proofs.Automaton.Shared
import Slr.Proofs.Automaton.Stacked

/-! # Closures and kernels

The closure of items is the least set that holds them and is closed: with an item that
expects a nonterminal it holds the first items of its productions. So a closure depends on
which items it is of and on nothing else, grows with them, and is its own closure.

A state is the closure of its kernel. What items bring stands at the place 0, and the
goal's first item, which a kernel may hold there too, is brought by nothing but itself; so
the kernel of a closure has the items that the closure was made of. -/

namespace Slr

variable {g : Grammar} {seeds seeds' : List Item} {it : Item}

namespace Grammar

/-- A set holds the seeds, and what its items bring. -/
structure Closes (g : Grammar) (seeds : List Item) (S : Item → Prop) : Prop where
  seeds : ∀ it ∈ seeds, S it
  brings : ∀ it n, S it → it.next = some (.nonterminal n) → ∀ p ∈ g.productionsFor n, S (.start p)

/-- The least set that holds the seeds and what its items bring, in strict order. -/
structure LeastClosed (g : Grammar) (seeds : List Item) (items : ItemSet) : Prop where
  sorted : items.Pairwise Item.Below
  closes : g.Closes seeds (· ∈ items)
  least : ∀ S, g.Closes seeds S → ∀ it ∈ items, S it

theorem closes_brought (g : Grammar) (seeds : List Item) : g.Closes seeds (g.Brought seeds) where
  seeds := fun _ hit => .seed hit
  brings := fun _ _ hit hnext _ hfor => by
    obtain ⟨hp, rfl⟩ := mem_productionsFor.mp hfor
    exact hit.predict hnext hp

theorem Closes.of_brought {S : Item → Prop} (h : g.Closes seeds S) (hit : g.Brought seeds it) :
    S it := by
  induction hit with
  | seed hit => exact h.seeds _ hit
  | predict _ hnext hp ih => exact h.brings _ _ ih hnext _ (mem_productionsFor.mpr ⟨hp, rfl⟩)

/-! ## Closures -/

section

variable (hseeds : ∀ it ∈ seeds, it.production ∈ g.productions)

include hseeds

theorem closure_leastClosed : g.LeastClosed seeds (g.closure seeds) where
  sorted := g.items_pairwise.sublist (g.closure_sublist seeds)
  closes := by simpa only [mem_closure_iff hseeds] using g.closes_brought seeds
  least := fun _ hS _ hit => hS.of_brought ((mem_closure_iff hseeds).mp hit)

theorem closure_closure : g.closure (g.closure seeds) = g.closure seeds := by
  have hown : ∀ it ∈ g.closure seeds, it.production ∈ g.productions := fun it hit =>
    production_mem_of_sublist (g.closure_sublist seeds) hit
  have hleast := closure_leastClosed hseeds
  have hleast' := closure_leastClosed hown
  refine (g.closure_lists _).eq_of_mem_iff (g.closure_lists _) fun it => ⟨?_, ?_⟩
  · exact hleast'.least _ ⟨fun _ hit => hit, hleast.closes.brings⟩ it
  · exact hleast'.closes.seeds it

variable (hseeds' : ∀ it ∈ seeds', it.production ∈ g.productions)

include hseeds'

theorem closure_mono (h : seeds ⊆ seeds') : g.closure seeds ⊆ g.closure seeds' := by
  have hcloses := (closure_leastClosed hseeds').closes
  exact (closure_leastClosed hseeds).least _ ⟨fun it hit => hcloses.seeds it (h hit), hcloses.brings⟩

/-- Neither the order of the seeds nor how often one is given matters. -/
theorem closure_congr (h : ∀ it, it ∈ seeds ↔ it ∈ seeds') :
    g.closure seeds = g.closure seeds' := by
  refine (g.closure_lists seeds).eq_of_mem_iff (g.closure_lists seeds') fun it => ?_
  exact ⟨fun hit => closure_mono hseeds hseeds' (fun _ => (h _).mp) hit,
    fun hit => closure_mono hseeds' hseeds (fun _ => (h _).mpr) hit⟩

end

end Grammar

/-! ## Kernels -/

/-- An item that is not there because of others. -/
def Item.isKernel (it : Item) : Bool := 0 < it.dot || it.production.isGoal

theorem Item.isKernel_iff (hit : it.production ∈ g.productions) :
    it.isKernel = true ↔ 0 < it.dot ∨ it = .start g.goal := by
  have hgoal : it.production.isGoal = true ↔ it.production = g.goal := by
    rw [Production.isGoal, beq_iff_eq]
    constructor
    · exact Grammar.eq_of_index hit g.goal_mem
    · intro h
      rw [h]
      rfl
  rw [isKernel, Bool.or_eq_true, decide_eq_true_iff, hgoal]
  constructor
  · rintro (hdot | hgoal)
    · exact .inl hdot
    · rcases Nat.eq_zero_or_pos it.dot with hdot | hdot
      · exact .inr (ext_of hgoal hdot)
      · exact .inl hdot
  · rintro (hdot | rfl)
    · exact .inl hdot
    · exact .inr rfl

/-- Nothing but the goal's first item brings it. -/
theorem Item.eq_start_goal_of_next (hit : it.production ∈ g.productions)
    (hnext : it.next = some (.nonterminal goalName)) : it = .start g.goal := by
  obtain hgoal : it.production = g.goal := by
    rcases Grammar.goal_or_unreserved hit with hgoal | ⟨-, hrhs⟩
    · exact hgoal
    · exact absurd (hrhs _ (next_mem_rhs hnext)) (by decide)
  refine ext_of hgoal ?_
  have hlt := dot_lt_of_next hnext
  rw [next, hgoal] at hnext
  rw [hgoal] at hlt
  simp only [Grammar.goal, Production.goal, List.length_cons, List.length_nil] at hlt
  obtain hdot | hdot : it.dot = 0 ∨ it.dot = 1 := by omega
  · exact hdot
  · simp [hdot, Grammar.goal, Production.goal] at hnext

/-- The kernel items of what seeds bring are seeds. -/
theorem Grammar.Brought.seed_of_isKernel (hseeds : ∀ it ∈ seeds, it.production ∈ g.productions)
    (h : g.Brought seeds it) (hkernel : it.isKernel = true) : it ∈ seeds := by
  induction h with
  | seed hit => exact hit
  | @predict it p h hnext hp ih =>
    have hit := h.production_mem hseeds
    obtain rfl : p = g.goal := by
      rcases (Item.isKernel_iff hp).mp hkernel with hdot | hgoal
      · exact absurd hdot (Nat.lt_irrefl 0)
      · exact congrArg Item.production hgoal
    obtain rfl := Item.eq_start_goal_of_next hit hnext
    exact ih hkernel

namespace Automaton

variable {a : Automaton} {q i j : Nat}

theorem kernel_eq (a : Automaton) (q : Nat) : a.kernel q = (a.items q).filter Item.isKernel := rfl

/-- The kernel of a closure of kernel items has these items. -/
theorem mem_filter_isKernel_iff (hseeds : ∀ it ∈ seeds, it.production ∈ g.productions)
    (hkernel : ∀ it ∈ seeds, it.isKernel = true) :
    it ∈ (g.closure seeds).filter Item.isKernel ↔ it ∈ seeds := by
  rw [List.mem_filter, Grammar.mem_closure_iff hseeds]
  constructor
  · intro h
    exact h.1.seed_of_isKernel hseeds h.2
  · intro h
    exact ⟨.seed h, hkernel it h⟩

namespace Canonical

variable (h : Canonical g a)

include h

/-- Each state is the closure of some kernel items. -/
theorem exists_seeds (hq : q < a.size) : ∃ seeds, seeds ≠ [] ∧
    (∀ it ∈ seeds, it.production ∈ g.productions ∧ it.isKernel = true) ∧
    a.items q = g.closure seeds := by
  obtain ⟨qs, xs, way⟩ := h.reached q hq
  cases way with
  | bottom =>
    refine ⟨[.start g.goal], by simp, ?_, items_eq h.initial_eq⟩
    intro it hit
    obtain rfl := List.mem_singleton.mp hit
    exact ⟨g.goal_mem, rfl⟩
  | @push q' _ _ x _ _ edge =>
    obtain ⟨hlt, -, ⟨it, hit, hnext⟩, hstate⟩ := h.edge_spec edge
    refine ⟨_, ?_, ?_, items_eq hstate⟩
    · obtain ⟨it', hadv⟩ := Item.exists_advance hnext
      exact List.ne_nil_of_mem (Item.mem_advanced_iff.mpr ⟨it, hit, hnext, hadv⟩)
    · intro it' hit'
      refine ⟨Grammar.production_mem_of_advanced (h.sublist_items hlt) it' hit', ?_⟩
      obtain ⟨it, -, -, hadv⟩ := Item.mem_advanced_iff.mp hit'
      simp [Item.isKernel, (Item.advance?_eq_some_iff.mp hadv).2]

theorem kernel_ne_nil (hq : q < a.size) : a.kernel q ≠ [] := by
  obtain ⟨seeds, hne, hkernel, hitems⟩ := h.exists_seeds hq
  obtain ⟨it, hit⟩ := List.exists_mem_of_ne_nil seeds hne
  rw [kernel_eq, hitems]
  exact List.ne_nil_of_mem ((mem_filter_isKernel_iff (fun it hit => (hkernel it hit).1)
    fun it hit => (hkernel it hit).2).mpr hit)

theorem closure_kernel (hq : q < a.size) : g.closure (a.kernel q) = a.items q := by
  obtain ⟨seeds, -, hkernel, hitems⟩ := h.exists_seeds hq
  have hseeds : ∀ it ∈ seeds, it.production ∈ g.productions := fun it hit => (hkernel it hit).1
  have hmem {it : Item} : it ∈ a.kernel q ↔ it ∈ seeds := by
    rw [kernel_eq, hitems]
    exact mem_filter_isKernel_iff hseeds fun it hit => (hkernel it hit).2
  rw [hitems]
  exact Grammar.closure_congr (fun it hit => hseeds it (hmem.mp hit)) hseeds fun _ => hmem

/-- No two states have the same kernel. -/
theorem eq_of_kernel (hi : i < a.size) (hj : j < a.size) (heq : a.kernel i = a.kernel j) :
    i = j := by
  have hitems : a.items i = a.items j := by
    rw [← h.closure_kernel hi, heq, h.closure_kernel hj]
  rw [items_eq (List.getElem?_eq_getElem hi), items_eq (List.getElem?_eq_getElem hj)] at hitems
  exact h.nodup.getElem_inj_iff.mp hitems

end Canonical

end Automaton

/-- The stack that makes a closure gets empty, and what it makes is the least closed set. The
closure of a closure is the closure itself, more seeds have no less in their closure, and the
order of seeds does not matter, nor how often one is given. A state has items in its kernel,
is their closure, and shares its kernel with no other state. -/
theorem Grammar.closure_exact (g : Grammar) :
    (∀ seeds, (∀ it ∈ seeds, it.production ∈ g.productions) →
      (∃ steps, ∀ n, steps ≤ n → g.closureBy n seeds = some (g.closure seeds)) ∧
      g.LeastClosed seeds (g.closure seeds) ∧
      g.closure (g.closure seeds) = g.closure seeds ∧
      ∀ seeds', (∀ it ∈ seeds', it.production ∈ g.productions) →
        (seeds ⊆ seeds' → g.closure seeds ⊆ g.closure seeds') ∧
        ((∀ it, it ∈ seeds ↔ it ∈ seeds') → g.closure seeds = g.closure seeds')) ∧
    ∀ i, i < (Automaton.build g).size →
      (Automaton.build g).kernel i ≠ [] ∧
      g.closure ((Automaton.build g).kernel i) = (Automaton.build g).items i ∧
      ∀ j, j < (Automaton.build g).size →
        (Automaton.build g).kernel i = (Automaton.build g).kernel j → i = j := by
  have hc := Automaton.build_canonical g
  constructor
  · intro seeds hseeds
    refine ⟨exists_closureBy hseeds, closure_leastClosed hseeds, closure_closure hseeds, ?_⟩
    intro seeds' hseeds'
    exact ⟨closure_mono hseeds hseeds', closure_congr hseeds hseeds'⟩
  · intro i hi
    exact ⟨hc.kernel_ne_nil hi, hc.closure_kernel hi, fun j hj => hc.eq_of_kernel hi hj⟩

/-- Behind a bracket a word is to come, which may begin with a bracket or be empty. -/
theorem closure_exact_brackets :
    (∀ it ∈ [Item.start brackets.goal], it.production ∈ brackets.productions) ∧
      brackets.LeastClosed [.start brackets.goal] (brackets.closure [.start brackets.goal]) ∧
      (Automaton.build brackets).kernel 1 =
        [⟨⟨1, "word", [.terminal "(", .nonterminal "word", .terminal ")"]⟩, 1, by decide⟩] ∧
      brackets.closure ((Automaton.build brackets).kernel 1) =
        (Automaton.build brackets).items 1 := by
  have hseeds : ∀ it ∈ [Item.start brackets.goal], it.production ∈ brackets.productions := by
    decide
  have hsize : 1 < (Automaton.build brackets).size := by cbv
  obtain ⟨hclosure, hstates⟩ := brackets.closure_exact
  exact ⟨hseeds, (hclosure _ hseeds).2.1, by cbv, (hstates 1 hsize).2.1⟩

end Slr
