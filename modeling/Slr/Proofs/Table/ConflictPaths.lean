import Slr.Proofs.Automaton.Shortest
import Slr.Proofs.Table.Rows

/-! # Conflicts say how their states are reached

A path is found to every state, it is a shortest one, and to anything else none is found. A
conflict is recorded with the path to the state whose row it is in, by whatever calls of a
builder and for whatever lookahead sets, so every conflict that is reported has a shortest
path to its own state. -/

namespace Slr

/-- The path of a conflict names the symbols on a shortest way to its state. -/
def Conflict.Located (a : Automaton) (c : Conflict) : Prop :=
  c.state < a.size ∧ ∃ path, a.Shortest c.state path ∧ c.path = path.map Symbol.name

variable {g : Grammar} {a : Automaton} {q : Nat} {c : Conflict} {found : List Conflict}
  {path : List Symbol}

theorem Automaton.Canonical.located (h : Automaton.Canonical g a) (hpath : a.path? q = some path)
    (terminal : String) (votes : List Vote) : (Conflict.ofVotes q path terminal votes).Located a := by
  have hq : q < a.size := by
    by_contra hle
    have hnone : a.path? q = none := h.path?_eq_none_iff.mpr fun r hr => by omega
    rw [hnone] at hpath
    cases hpath
  obtain ⟨path', hpath', hshortest⟩ := h.exists_shortest hq
  obtain rfl : path = path' := Option.some.inj (hpath.symm.trans hpath')
  exact ⟨hq, path, hshortest, rfl⟩

/-! ## Tables -/

namespace Automaton

variable {follow : Lookahead} {it : Item}

/-- What an item has no votes for is no conflict. -/
theorem itemVotes_ne_conflicts : a.itemVotes follow q it ≠ .error (.conflicts found) := by
  unfold itemVotes
  split
  · unfold reduceVotes
    split
    · simp
    · split <;> simp
  · simp
  · split <;> simp

theorem allVotes_ne_conflicts : a.allVotes follow ≠ .error (.conflicts found) := by
  intro h
  obtain ⟨q, -, hstate⟩ := exists_mem_of_mapM_error h
  unfold stateVotes at hstate
  cases hitems : (a.items q).mapM (a.itemVotes follow q) with
  | error e =>
    rw [hitems] at hstate
    obtain ⟨it, -, hit⟩ := exists_mem_of_mapM_error hitems
    cases hstate
    exact itemVotes_ne_conflicts hit
  | ok votes =>
    rw [hitems] at hstate
    cases hstate

theorem Canonical.located_of_table (h : Canonical g a)
    (htable : a.table follow = .error (.conflicts found)) (hc : c ∈ found) : c.Located a := by
  unfold table at htable
  cases hall : a.allVotes follow with
  | error e =>
    rw [hall] at htable
    cases htable
    exact absurd hall allVotes_ne_conflicts
  | ok all =>
    have hlength : all.length = a.size := by simpa using mapM_length hall
    have hmem : c ∈ (all.mapIdx a.conflictsOf).flatten := by
      rw [hall] at htable
      simp only at htable
      split at htable
      · cases htable
      · cases htable
        exact hc
    obtain ⟨row, hrow, hc⟩ := List.mem_flatten.mp hmem
    obtain ⟨q, hq, rfl⟩ := List.mem_mapIdx.mp hrow
    obtain ⟨path, hpath, -⟩ := h.exists_shortest (hlength ▸ hq)
    obtain ⟨t, -, rfl⟩ := List.mem_map.mp hc
    rw [hpath]
    exact h.located hpath t _

end Automaton

/-! ## Builders -/

namespace Builder

/-- All conflicts of a builder are located in its automaton. -/
structure Locates (a : Automaton) (b : Builder) : Prop where
  automaton : b.automaton = a
  conflicts : ∀ c ∈ b.conflicts, c.Located a

variable {b b' : Builder} {call : Call} {calls : List Call}

theorem locates_ofAutomaton (a : Automaton) : Locates a (ofAutomaton a) := ⟨rfl, by simp [ofAutomaton]⟩

theorem closeRow_ne_conflicts : b.closeRow ≠ .error (.conflicts found) := by
  unfold Builder.closeRow
  split
  · simp
  · split
    · simp
    · unfold Builder.rowConflicts
      split
      · simp [Except.map]
      · split <;> simp [Except.map]

namespace Locates

variable (h : Locates a b) (hcanonical : Automaton.Canonical g a)

include h hcanonical

theorem rowConflicts (hfound : b.rowConflicts q = .ok found) : ∀ c ∈ found, c.Located a := by
  unfold Builder.rowConflicts at hfound
  split at hfound
  · cases hfound
    simp
  · split at hfound
    · cases hfound
    · rename_i path hpath
      cases hfound
      intro c hc
      obtain ⟨t, -, rfl⟩ := List.mem_map.mp hc
      exact hcanonical.located (h.automaton ▸ hpath) _ _

theorem closeRow (hclose : b.closeRow = .ok b') : Locates a b' := by
  unfold Builder.closeRow at hclose
  split at hclose
  · cases hclose
    exact h
  · rename_i state hstate
    split at hclose
    · cases hclose
    · obtain ⟨found, hfound, rfl⟩ := Draft.map_eq_ok.mp hclose
      refine ⟨h.automaton, fun c hc => ?_⟩
      rcases List.mem_append.mp hc with hc | hc
      · exact h.conflicts c hc
      · exact h.rowConflicts hcanonical hfound c hc

theorem newRow (state : Int) : Locates a (b.newRow state).1 := by
  unfold Builder.newRow
  cases hclose : b.closeRow with
  | error e => exact h
  | ok b' =>
    have hclosed := h.closeRow hcanonical hclose
    simp only
    split
    · exact ⟨hclosed.automaton, hclosed.conflicts⟩
    · exact hclosed

theorem flush : Locates a b.flush.1 := by
  unfold Builder.flush
  cases hclose : b.closeRow with
  | error e => exact h
  | ok b' =>
    have hclosed := h.closeRow hcanonical hclose
    simp only
    split <;> exact hclosed

/-- What a flush reports is what the builder has. -/
theorem located_of_flush (hflush : b.flush.2 = .error (.conflicts found)) (hc : c ∈ found) :
    c.Located a := by
  unfold Builder.flush at hflush
  cases hclose : b.closeRow with
  | error e =>
    rw [hclose] at hflush
    cases hflush
    exact absurd hclose closeRow_ne_conflicts
  | ok b' =>
    have hclosed := h.closeRow hcanonical hclose
    rw [hclose] at hflush
    simp only at hflush
    split at hflush
    · cases hflush
    · cases hflush
      exact hclosed.conflicts c hc

omit hcanonical in
theorem vote (terminal : String) (move : Move) (item : Item) :
    Locates a (b.vote terminal move item).1 := by
  unfold Builder.vote
  split
  · exact ⟨h.automaton, h.conflicts⟩
  · exact h

theorem use (call : Call) : Locates a (b.use call).1 := by
  cases call with
  | newRow state => exact h.newRow hcanonical state
  | shift terminal state item => exact h.vote terminal (.shift state) item
  | reduce terminal item => exact h.vote terminal (.reduce item.production) item
  | accept terminal item => exact h.vote terminal .accept item
  | goto name state =>
    simp only [Builder.use, Builder.goto]
    split
    · exact h
    · exact ⟨h.automaton, h.conflicts⟩
  | flush => exact h.flush hcanonical

theorem after (calls : List Call) : Locates a (b.after calls) := by
  induction calls generalizing b with
  | nil => exact h
  | cons call calls ih => exact ih (h.use hcanonical call)

end Locates

end Builder

/-! ## All together -/

/-- How states are found, and that conflicts say it. -/
structure Grammar.FindsPaths (g : Grammar) : Prop where
  found : ∀ q < (Automaton.build g).size,
    ∃ path, (Automaton.build g).path? q = some path ∧ (Automaton.build g).Shortest q path
  missing : ∀ target : Int, (∀ q < (Automaton.build g).size, target ≠ q) →
    (Automaton.build g).path? target = none
  /-- A queue in which states may wait many times is worked off, and comes to the same. -/
  queued : ∀ target : Int, ∃ steps, ∀ more,
    (Automaton.build g).seek target (steps + more) [] [(0, [])] =
      some ((Automaton.build g).path? target)
  /-- The conflicts that are reported instead of a table, for whatever lookahead sets. -/
  reported : ∀ follow conflicts, (Automaton.build g).table follow = .error (.conflicts conflicts) →
    ∀ c ∈ conflicts, c.Located (Automaton.build g)
  /-- The conflicts that a builder reports, whatever was called before. -/
  recorded : ∀ calls conflicts,
    ((Builder.ofAutomaton (Automaton.build g)).after calls).flush.2 = .error (.conflicts conflicts) →
      ∀ c ∈ conflicts, c.Located (Automaton.build g)

/-- To every state a shortest path is found, to anything else none, and every conflict carries
one to its own state. -/
theorem Grammar.paths_shortest (g : Grammar) : g.FindsPaths where
  found := fun _ hq => (Automaton.build_canonical g).exists_shortest hq
  missing := fun _ htarget => (Automaton.build_canonical g).path?_eq_none_iff.mpr htarget
  queued := (Automaton.build_canonical g).exists_seek
  reported := fun _ _ htable _ hc => (Automaton.build_canonical g).located_of_table htable hc
  recorded := fun calls _ hflush _ hc =>
    ((Builder.locates_ofAutomaton _).after (Automaton.build_canonical g) calls).located_of_flush
      (Automaton.build_canonical g) hflush hc

end Slr
