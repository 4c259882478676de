import Slr.Automaton.Path
import Slr.Proofs.Automaton.Viable

/-! # Every state has a path

The search for a state goes through the levels of the automaton. What it has visited
is closed but for the trails at hand, and a level that meets no new state would make
it closed; so each level meets one, until the state is found. What is found names a
way to the state. -/

namespace Slr.Automaton

variable {g : Grammar} {a : Automaton} {q r target : Nat} {x : Symbol} {visited : List Nat}
  {trails : List Trail} {t : Trail} {levels : Nat} {path : List Symbol}

/-! ## New trails -/

theorem mem_of_mem_newTrails (h : t ∈ newTrails visited trails) : t ∈ trails := by
  induction trails generalizing visited with
  | nil => cases h
  | cons u us ih =>
    unfold newTrails at h
    split at h
    · exact List.mem_cons_of_mem _ (ih h)
    · rcases List.mem_cons.mp h with rfl | h
      · exact List.mem_cons_self
      · exact List.mem_cons_of_mem _ (ih h)

/-- The states of the trails are visited, or one of the new trails leads there. -/
theorem newTrails_covers (visited : List Nat) (h : t ∈ trails) :
    t.1 ∈ (newTrails visited trails).map Prod.fst ++ visited := by
  induction trails generalizing visited with
  | nil => cases h
  | cons u us ih =>
    unfold newTrails
    rcases List.mem_cons.mp h with rfl | h
    · split
      · rename_i hseen
        exact List.mem_append_right _ hseen
      · simp
    · split
      · exact ih visited h
      · have hrest := ih (u.1 :: visited) h
        simp only [List.mem_append, List.mem_cons, List.map_cons] at hrest ⊢
        tauto

theorem newTrails_nodup (h : visited.Nodup) :
    ((newTrails visited trails).map Prod.fst ++ visited).Nodup := by
  induction trails generalizing visited with
  | nil => exact h
  | cons u us ih =>
    unfold newTrails
    split
    · exact ih h
    · rename_i hnew
      have hrest := ih (List.nodup_cons.mpr ⟨hnew, h⟩)
      exact (List.perm_middle.nodup_iff).mp hrest

/-! ## The search -/

/-- The search so far: each trail is a way, and what is visited is closed but for the trails. -/
structure Searching (a : Automaton) (target : Nat) (visited : List Nat) (trails : List Trail) :
    Prop where
  trailed : ∀ t ∈ trails, ∃ qs, a.Spells (t.1 :: qs) t.2.reverse
  nodup : visited.Nodup
  lt : ∀ q ∈ visited, q < a.size
  missing : target ∉ visited
  start : 0 ∈ visited ∨ 0 ∈ trails.map Prod.fst
  closed : ∀ q ∈ visited, ∀ x r, (a.successorsOf q).lookup x = some r →
    r ∈ visited ∨ r ∈ trails.map Prod.fst

theorem searching_start : Searching a target [] [(0, [])] where
  trailed := fun t ht => by
    obtain rfl := List.mem_singleton.mp ht
    exact ⟨[], .bottom⟩
  nodup := .nil
  lt := by simp
  missing := by simp
  start := by simp
  closed := by simp

/-- Every state that symbols lead to is in a set that is closed under successors. -/
theorem Spells.mem_of_closed {qs : List Nat} {xs : List Symbol} (way : a.Spells (q :: qs) xs)
    (start : 0 ∈ visited)
    (closed : ∀ q ∈ visited, ∀ x r, (a.successorsOf q).lookup x = some r → r ∈ visited) :
    q ∈ visited := by
  generalize hqs : q :: qs = all at way
  induction way generalizing q qs with
  | bottom =>
    obtain ⟨rfl, -⟩ := List.cons.inj hqs
    exact start
  | push _ edge ih =>
    obtain ⟨rfl, rfl⟩ := List.cons.inj hqs
    exact closed _ (ih rfl) _ _ edge

namespace Canonical

variable (h : Canonical g a)

include h

theorem lookup_of_mem (hr : (x, r) ∈ a.successorsOf q) : (a.successorsOf q).lookup x = some r := by
  by_cases hq : q < a.states.length
  · exact (h.row_of_lt hq).lookup_of_mem h.nodup hr
  · simp [h.successorsOf_of_le (Nat.le_of_not_lt hq)] at hr

theorem lt_of_spells {qs : List Nat} {xs : List Symbol} (way : a.Spells (q :: qs) xs) :
    q < a.size := by
  obtain ⟨it, hit⟩ := h.exists_item way
  exact lt_of_mem_items hit

theorem searching_next (hs : Searching a target visited trails)
    (hmiss : target ∉ trails.map Prod.fst) :
    Searching a target ((newTrails visited trails).map Prod.fst ++ visited)
      ((newTrails visited trails).flatMap a.extend) where
  trailed := fun t ht => by
    obtain ⟨u, hu, ht⟩ := List.mem_flatMap.mp ht
    obtain ⟨⟨x, r⟩, hr, rfl⟩ := List.mem_map.mp ht
    obtain ⟨qs, way⟩ := hs.trailed u (mem_of_mem_newTrails hu)
    refine ⟨u.1 :: qs, ?_⟩
    rw [List.reverse_append]
    exact way.push (h.lookup_of_mem hr)
  nodup := newTrails_nodup hs.nodup
  lt := fun q hq => by
    rcases List.mem_append.mp hq with hq | hq
    · obtain ⟨t, ht, rfl⟩ := List.mem_map.mp hq
      obtain ⟨qs, way⟩ := hs.trailed t (mem_of_mem_newTrails ht)
      exact h.lt_of_spells way
    · exact hs.lt q hq
  missing := fun hmem => by
    rcases List.mem_append.mp hmem with hmem | hmem
    · obtain ⟨t, ht, rfl⟩ := List.mem_map.mp hmem
      exact hmiss (List.mem_map_of_mem (mem_of_mem_newTrails ht))
    · exact hs.missing hmem
  start := by
    rcases hs.start with hstart | hstart
    · exact Or.inl (List.mem_append_right _ hstart)
    · obtain ⟨t, ht, hzero⟩ := List.mem_map.mp hstart
      exact Or.inl (hzero ▸ newTrails_covers _ ht)
  closed := fun q hq x r hr => by
    rcases List.mem_append.mp hq with hq | hq
    · obtain ⟨t, ht, rfl⟩ := List.mem_map.mp hq
      refine Or.inr (List.mem_map.mpr ⟨(r, t.2 ++ [x]), ?_, rfl⟩)
      exact List.mem_flatMap.mpr
        ⟨t, ht, List.mem_map.mpr ⟨(x, r), Association.mem_of_lookup hr, rfl⟩⟩
    · rcases hs.closed q hq x r hr with hseen | hahead
      · exact Or.inl (List.mem_append_right _ hseen)
      · obtain ⟨t, ht, rfl⟩ := List.mem_map.mp hahead
        exact Or.inl (newTrails_covers _ ht)

/-- As long as a state has not been found, each level meets a new state. -/
theorem newTrails_ne_nil (hs : Searching a target visited trails) (htarget : target < a.size) :
    newTrails visited trails ≠ [] := by
  intro hnone
  have hold {q : Nat} (hq : q ∈ trails.map Prod.fst) : q ∈ visited := by
    obtain ⟨t, ht, rfl⟩ := List.mem_map.mp hq
    simpa [hnone] using newTrails_covers visited ht
  obtain ⟨qs, xs, way⟩ := h.reached target htarget
  refine hs.missing (way.mem_of_closed (hs.start.elim id hold) ?_)
  intro q hq x r hr
  exact (hs.closed q hq x r hr).elim id hold

theorem searchLevel_spec (hs : Searching a target visited trails) (htarget : target < a.size)
    (hlevels : a.size < levels + visited.length) :
    ∃ path qs, searchLevel a target levels visited trails = some path ∧
      a.Spells (target :: qs) path.reverse := by
  induction levels generalizing visited trails with
  | zero =>
    have hsub : visited ⊆ List.range a.size := fun q hq => List.mem_range.mpr (hs.lt q hq)
    have hle := (List.subperm_of_subset hs.nodup hsub).length_le
    rw [List.length_range] at hle
    omega
  | succ levels ih =>
    unfold searchLevel
    cases hfind : trails.find? fun t => (t.1 : Int) == target with
    | some t =>
      have htarget : t.1 = target := Int.ofNat_inj.mp (by simpa using List.find?_some hfind)
      obtain ⟨qs, way⟩ := hs.trailed t (List.mem_of_find?_eq_some hfind)
      exact ⟨t.2, qs, rfl, htarget ▸ way⟩
    | none =>
      have hmiss : target ∉ trails.map Prod.fst := by
        intro hmem
        obtain ⟨t, ht, heq⟩ := List.mem_map.mp hmem
        simpa [heq] using List.find?_eq_none.mp hfind t ht
      refine ih (h.searching_next hs hmiss) ?_
      have hpos := List.length_pos_iff.mpr (h.newTrails_ne_nil hs htarget)
      simp only [List.length_append, List.length_map]
      omega

/-- The search finds a path to each state, and the path leads there. -/
theorem path?_spec (hq : q < a.size) :
    ∃ path qs, a.path? q = some path ∧ a.Spells (q :: qs) path.reverse :=
  h.searchLevel_spec searching_start hq (by simp)

end Canonical

end Slr.Automaton
