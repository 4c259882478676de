import Slr.Proofs.Automaton.Viable

/-! # Depths of states

The depth of a state is how far the place of one of its items is from the left.
So many symbols lie on every way to the state, and an edge adds at most one. -/

namespace Slr

namespace Automaton

variable {g : Grammar} {a : Automaton} {items : ItemSet} {it : Item} {q r n : Nat}
  {qs : List Nat} {x : Symbol} {xs : List Symbol}

theorem foldl_max_le_iff {l : List Nat} {m : Nat} :
    l.foldl max m ≤ n ↔ m ≤ n ∧ ∀ k ∈ l, k ≤ n := by
  induction l generalizing m with
  | nil => simp
  | cons k l ih =>
    rw [List.foldl_cons, ih, Nat.max_le]
    simp [and_assoc]

theorem depthOf_le_iff : depthOf items ≤ n ↔ ∀ it ∈ items, it.dot ≤ n := by
  simp [depthOf, foldl_max_le_iff]

theorem dot_le_depth (h : it ∈ a.items q) : it.dot ≤ a.depth q :=
  depthOf_le_iff.mp (Nat.le_refl _) it h

namespace Canonical

variable (h : Canonical g a)

include h

/-- A state looks no deeper than the way to it is long. -/
theorem depth_le (way : Spells a (q :: qs) xs) : a.depth q ≤ qs.length := by
  apply depthOf_le_iff.mpr
  intro it hit
  obtain ⟨ys, hxs, -⟩ := ((h.mem_items_iff way).mp hit).handle
  have hlength := way.length
  rw [hxs] at hlength
  have hdot := it.dot_le
  simp only [List.length_cons, List.length_append, List.length_reverse, List.length_take] at hlength
  omega

theorem depth_edge_le (way : Spells a (q :: qs) xs) (edge : (a.successorsOf q).lookup x = some r) :
    a.depth r ≤ a.depth q + 1 := by
  apply depthOf_le_iff.mpr
  intro it hit
  have hvalid := (h.mem_items_iff (way.push edge)).mp hit
  generalize hzs : x :: xs = zs at hvalid
  cases hvalid with
  | goal => cases hzs
  | predict => exact Nat.zero_le _
  | advance hbefore hnext hx hadv =>
    obtain ⟨rfl, rfl⟩ := List.cons.inj hzs
    rw [(Item.advance?_eq_some_iff.mp hadv).2]
    exact Nat.succ_le_succ (dot_le_depth ((h.mem_items_iff way).mpr hbefore))

end Canonical

end Automaton

end Slr
