import Slr.Proofs.Automaton.Depth
import Slr.Proofs.Table.Entries

/-! # How far the moves of a table reach

A shift or a goto leads to a state at most one deeper, a reduction takes no more values
than its state is deep, and a state that accepts has seen a symbol. Procedures hold as
many values as their state is deep, and these four facts say that this is enough. -/

namespace Slr

/-- What the moves and gotos of a state say about its depth. -/
structure Table.Bounded (t : Table) (q : Nat) : Prop where
  shift : ∀ {k r}, t.move? q k = some (.shift r) → t.depth r ≤ t.depth q + 1
  goto : ∀ {n r}, t.goto? q n = some r → t.depth r ≤ t.depth q + 1
  reduce : ∀ {k p}, t.move? q k = some (.reduce p) → p.size ≤ t.depth q
  accept : ∀ {k}, t.move? q k = some .accept → 0 < t.depth q

namespace Automaton.Canonical

variable {g : Grammar} {a : Automaton} {follow : Lookahead} {t : Table} {q r : Nat} {x : Symbol}
  (h : Canonical g a)

include h

theorem depth_le_succ (edge : (a.successorsOf q).lookup x = some r) :
    a.depth r ≤ a.depth q + 1 := by
  obtain ⟨qs, xs, way⟩ := h.reached q (h.edge_spec edge).1
  exact h.depth_edge_le way edge

/-- The item before the end of the input has seen a symbol. -/
theorem depth_pos {it : Item} (hit : it ∈ a.items q) (hnext : it.next = some (.terminal endName)) :
    0 < a.depth q := by
  obtain ⟨qs, xs, way⟩ := h.reached q (lt_of_mem_items hit)
  have hdot := (((h.mem_items_iff way).mp hit).goal_of_next_end hnext).2
  have hdepth := dot_le_depth hit
  omega

theorem bounded (hr : t.Renders a follow) (q : Nat) : t.Bounded q where
  shift := fun hm => by
    rw [hr.depth, hr.depth]
    exact h.depth_le_succ (hr.shift hm).2
  goto := fun hgoto => by
    rw [hr.depth, hr.depth]
    exact h.depth_le_succ ((hr.goto q _).symm.trans hgoto)
  reduce := fun hm => by
    obtain ⟨it, hit, rfl, hnext⟩ := hr.reduce hm
    rw [hr.depth, Production.size, ← Item.next_eq_none_iff.mp hnext]
    exact dot_le_depth hit
  accept := fun hm => by
    obtain ⟨-, it, hit, hnext⟩ := hr.accept hm
    rw [hr.depth]
    exact h.depth_pos hit hnext

end Automaton.Canonical

end Slr
