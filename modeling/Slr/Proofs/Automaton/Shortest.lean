import Slr.Automaton.Search
import Slr.Proofs.Automaton.Paths
import Slr.Proofs.Automaton.Prefixes

/-! # The path to a state is a shortest one

The trails of a level are as long as levels were searched before, and every way that is
shorter leads to a state that was visited. So the first trail that leads to the state is no
longer than any other way to it. A search with a queue, in which a state may wait many
times, works off one level after the other, and comes to the same. -/

namespace Slr.Automaton

/-- A list of symbols that leads from state 0 to a state, and none that does is shorter. -/
structure Shortest (a : Automaton) (q : Nat) (path : List Symbol) : Prop where
  leads : a.stateAfter? 0 path = some q
  le : ∀ path', a.stateAfter? 0 path' = some q → path.length ≤ path'.length

variable {g : Grammar} {a : Automaton} {q r n levels steps : Nat} {target : Int} {x : Symbol}
  {visited visited' : List Nat} {trails later : List Trail} {t : Trail} {path : List Symbol}

/-! ## Levels -/

/-- The search before the level of the ways with `n` symbols: each trail is one, and shorter ways
lead to states that were visited. -/
structure Leveled (a : Automaton) (n : Nat) (visited : List Nat) (trails : List Trail) : Prop where
  length : ∀ t ∈ trails, t.2.length = n
  shorter : ∀ q qs xs, a.Spells (q :: qs) xs → xs.length < n → q ∈ visited
  level : ∀ q qs xs, a.Spells (q :: qs) xs → xs.length = n → q ∈ visited ∨ q ∈ trails.map Prod.fst

theorem leveled_start (a : Automaton) : Leveled a 0 [] [(0, [])] where
  length := by simp
  shorter := fun q qs xs _ h => absurd h (Nat.not_lt_zero _)
  level := fun q qs xs way h => by
    obtain rfl := List.length_eq_zero_iff.mp h
    cases way
    simp

theorem Leveled.next {missing : Nat} (h : Leveled a n visited trails)
    (hs : Searching a missing visited trails) :
    Leveled a (n + 1) ((newTrails visited trails).map Prod.fst ++ visited)
      ((newTrails visited trails).flatMap a.extend) where
  length := fun t ht => by
    obtain ⟨u, hu, ht⟩ := List.mem_flatMap.mp ht
    obtain ⟨e, -, rfl⟩ := List.mem_map.mp ht
    simp [h.length u (mem_of_mem_newTrails hu)]
  shorter := fun q qs xs way hlt => by
    rcases Nat.lt_or_eq_of_le (Nat.le_of_lt_succ hlt) with hlt | heq
    · exact List.mem_append_right _ (h.shorter q qs xs way hlt)
    · rcases h.level q qs xs way heq with hseen | hahead
      · exact List.mem_append_right _ hseen
      · obtain ⟨t, ht, rfl⟩ := List.mem_map.mp hahead
        exact newTrails_covers visited ht
  level := fun r qs xs way heq => by
    cases way with
    | bottom => cases heq
    | @push q _ qs x xs way edge =>
      have hxs : xs.length = n := Nat.succ.inj heq
      have hq : q ∈ (newTrails visited trails).map Prod.fst ∨ q ∈ visited := by
        rcases h.level q qs xs way hxs with hseen | hahead
        · exact Or.inr hseen
        · obtain ⟨t, ht, rfl⟩ := List.mem_map.mp hahead
          exact List.mem_append.mp (newTrails_covers visited ht)
      rcases hq with hq | hq
      · -- The way to `q` has one symbol less, and a new trail leads there.
        obtain ⟨t, ht, rfl⟩ := List.mem_map.mp hq
        refine Or.inr (List.mem_map.mpr ⟨(r, t.2 ++ [x]), List.mem_flatMap.mpr ⟨t, ht, ?_⟩, rfl⟩)
        exact List.mem_map.mpr ⟨(x, r), Association.mem_of_lookup edge, rfl⟩
      · -- What was visited before was left over all its successors.
        rcases hs.closed q hq x r edge with hseen | hahead
        · exact Or.inl (List.mem_append_right _ hseen)
        · obtain ⟨t, ht, rfl⟩ := List.mem_map.mp hahead
          exact Or.inl (newTrails_covers visited ht)

theorem searchLevel_nil (a : Automaton) (target : Int) (levels : Nat) (visited : List Nat) :
    searchLevel a target levels visited [] = none := by
  induction levels generalizing visited with
  | zero => rfl
  | succ levels ih => exact ih visited

namespace Canonical

variable (h : Canonical g a)

include h

/-- What the levels give is no longer than any way to the state. -/
theorem length_le_of_searchLevel (hs : Searching a q visited trails) (hl : Leveled a n visited trails)
    (hpath : searchLevel a q levels visited trails = some path) {qs : List Nat} {xs : List Symbol}
    (way : a.Spells (q :: qs) xs) : path.length ≤ xs.length := by
  induction levels generalizing n visited trails with
  | zero => cases hpath
  | succ levels ih =>
    unfold searchLevel at hpath
    cases hfind : trails.find? fun t => (t.1 : Int) == q with
    | some t =>
      rw [hfind] at hpath
      obtain rfl : t.2 = path := Option.some.inj hpath
      rw [hl.length t (List.mem_of_find?_eq_some hfind)]
      exact Nat.le_of_not_lt fun hlt => hs.missing (hl.shorter q qs xs way hlt)
    | none =>
      rw [hfind] at hpath
      have hmiss : q ∉ trails.map Prod.fst := by
        intro hmem
        obtain ⟨t, ht, heq⟩ := List.mem_map.mp hmem
        simpa [heq] using List.find?_eq_none.mp hfind t ht
      exact ih (h.searching_next hs hmiss) (hl.next hs) hpath

/-- The search finds a shortest way to each state. -/
theorem exists_shortest (hq : q < a.size) : ∃ path, a.path? q = some path ∧ a.Shortest q path := by
  obtain ⟨path, qs, hpath, way⟩ := h.path?_spec hq
  refine ⟨path, hpath, stateAfter?_eq_some_iff.mpr ⟨qs, way⟩, ?_⟩
  intro path' hpath'
  obtain ⟨rs, way'⟩ := stateAfter?_eq_some_iff.mp hpath'
  have hle := h.length_le_of_searchLevel searching_start (leveled_start a) hpath way'
  rwa [List.length_reverse] at hle

theorem lt_of_trailed (hs : Searching a r visited trails) (ht : t ∈ trails) : t.1 < a.size := by
  obtain ⟨qs, way⟩ := hs.trailed t ht
  exact h.lt_of_spells way

/-- There are levels until no new state is met, whatever is looked for. -/
theorem searching_on (hs : Searching a a.size visited trails) :
    Searching a a.size ((newTrails visited trails).map Prod.fst ++ visited)
      ((newTrails visited trails).flatMap a.extend) := by
  refine h.searching_next hs fun hmem => ?_
  obtain ⟨t, ht, heq⟩ := List.mem_map.mp hmem
  exact absurd (h.lt_of_trailed hs ht) (by omega)

theorem searchLevel_eq_none (htarget : ∀ q < a.size, target ≠ q)
    (hs : Searching a a.size visited trails) :
    searchLevel a target levels visited trails = none := by
  induction levels generalizing visited trails with
  | zero => rfl
  | succ levels ih =>
    have hfind : (trails.find? fun t => (t.1 : Int) == target) = none := by
      refine List.find?_eq_none.mpr fun t ht => ?_
      simpa using (htarget t.1 (h.lt_of_trailed hs ht)).symm
    rw [searchLevel, hfind]
    exact ih (h.searching_on hs)

theorem path?_eq_none_iff : a.path? target = none ↔ ∀ q < a.size, target ≠ q := by
  constructor
  · rintro hnone q hq rfl
    obtain ⟨path, hpath, -⟩ := h.exists_shortest hq
    rw [hnone] at hpath
    cases hpath
  · exact fun htarget => h.searchLevel_eq_none htarget searching_start

end Canonical

/-! ## The queue -/

/-- Only which states were visited counts. -/
theorem seek_congr (hsame : ∀ q, q ∈ visited ↔ q ∈ visited') (steps : Nat) (trails : List Trail) :
    seek a target steps visited trails = seek a target steps visited' trails := by
  induction steps generalizing visited visited' trails with
  | zero => rfl
  | succ steps ih =>
    cases trails with
    | nil => rfl
    | cons t trails =>
      have hcons : ∀ q, q ∈ t.1 :: visited ↔ q ∈ t.1 :: visited' := by simp [hsame]
      simp only [seek, hsame, ih hsame, ih hcons]

/-- A search that has ended has ended with more steps too. -/
theorem seek_add {found : Option (List Symbol)} (hfound : seek a target steps visited trails = some found)
    (more : Nat) : seek a target (steps + more) visited trails = some found := by
  induction steps generalizing visited trails with
  | zero => cases hfound
  | succ steps ih =>
    rw [Nat.add_right_comm]
    cases trails with
    | nil => exact hfound
    | cons t trails =>
      simp only [seek] at hfound ⊢
      split
      · rename_i hhit
        rwa [if_pos hhit] at hfound
      · rename_i hhit
        rw [if_neg hhit] at hfound
        split
        · rename_i hseen
          rw [if_pos hseen] at hfound
          exact ih hfound
        · rename_i hseen
          rw [if_neg hseen] at hfound
          exact ih hfound

/-- The first trail in the queue that leads to the state ends the search. -/
theorem seek_of_find? (hfind : trails.find? (fun t => (t.1 : Int) == target) = some t)
    (visited : List Nat) (later : List Trail) :
    seek a target trails.length visited (trails ++ later) = some (some t.2) := by
  induction trails generalizing visited later with
  | nil => cases hfind
  | cons u trails ih =>
    rw [List.find?_cons] at hfind
    rw [List.length_cons, List.cons_append, seek]
    split
    · rename_i hhit
      simp only [hhit, beq_self_eq_true, Option.some.injEq] at hfind
      rw [hfind]
    · rename_i hhit
      simp only [beq_eq_false_iff_ne.mpr hhit] at hfind
      split
      · exact ih hfind visited later
      · rw [List.append_assoc]
        exact ih hfind _ _

/-- When no trail of a level leads to the state, the level is worked off, and the next one waits. -/
theorem seek_level (hfind : trails.find? (fun t => (t.1 : Int) == target) = none) (steps : Nat)
    (visited : List Nat) (later : List Trail) :
    seek a target (trails.length + steps) visited (trails ++ later) =
      seek a target steps ((newTrails visited trails).map Prod.fst ++ visited)
        (later ++ (newTrails visited trails).flatMap a.extend) := by
  induction trails generalizing visited later with
  | nil => simp [newTrails]
  | cons u trails ih =>
    obtain ⟨hhit, hrest⟩ : (u.1 : Int) ≠ target ∧
        trails.find? (fun t => (t.1 : Int) == target) = none := by
      simpa using hfind
    rw [List.length_cons, Nat.add_right_comm, List.cons_append, seek, if_neg hhit, newTrails]
    split
    · exact ih hrest visited later
    · rw [List.append_assoc, ih hrest, List.append_assoc, List.flatMap_cons, List.map_cons]
      refine seek_congr (fun q => ?_) _ _
      simp only [List.mem_append, List.mem_cons, List.cons_append]
      tauto

namespace Canonical

variable (h : Canonical g a)

include h

/-- The queue is worked off, and comes to what the levels come to. -/
theorem exists_seek_eq (hs : Searching a a.size visited trails)
    (hlevels : a.size < levels + visited.length) :
    ∃ steps, seek a target steps visited trails =
      some (searchLevel a target levels visited trails) := by
  induction levels generalizing visited trails with
  | zero =>
    have hsub : visited ⊆ List.range a.size := fun q hq => List.mem_range.mpr (hs.lt q hq)
    have hle := (List.subperm_of_subset hs.nodup hsub).length_le
    rw [List.length_range] at hle
    omega
  | succ levels ih =>
    rw [searchLevel]
    cases hfind : trails.find? fun t => (t.1 : Int) == target with
    | some t =>
      have hseek := seek_of_find? (a := a) hfind visited []
      rw [List.append_nil] at hseek
      exact ⟨trails.length, hseek⟩
    | none =>
      have hlevel := fun steps => seek_level (a := a) hfind steps visited []
      simp only [List.append_nil, List.nil_append] at hlevel
      by_cases hnew : newTrails visited trails = []
      · refine ⟨trails.length + 1, ?_⟩
        rw [hlevel]
        simp only [hnew, List.flatMap_nil, searchLevel_nil]
        rfl
      · have hpos := List.length_pos_iff.mpr hnew
        obtain ⟨steps, hsteps⟩ := ih (h.searching_on hs)
          (by simp only [List.length_append, List.length_map]; omega)
        exact ⟨trails.length + steps, (hlevel steps).trans hsteps⟩

theorem exists_seek (target : Int) : ∃ steps, ∀ more,
    a.seek target (steps + more) [] [(0, [])] = some (a.path? target) := by
  have hlevels : a.size < a.size + 1 + ([] : List Nat).length := Nat.lt_succ_self _
  obtain ⟨steps, hsteps⟩ := h.exists_seek_eq searching_start hlevels
  exact ⟨steps, seek_add hsteps⟩

end Canonical

end Slr.Automaton
