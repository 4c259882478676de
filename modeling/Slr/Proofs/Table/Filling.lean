import Slr.Proofs.Automaton.Paths
import Slr.Proofs.Table.Entries
import Slr.Table.Filling

/-! # The builder makes the table

Filling a table row by row, where each lookup and each step of the builder may fail,
comes to what `Automaton.table` says at once. A row is closed one row late, so the
invariant is about the builder as it is once its open row has been closed. -/

namespace Slr

open Automaton

variable {g : Grammar} {a : Automaton} {follow : Lookahead} {q : Nat} {it : Item}
  {votes : Votes} {rows : List Votes} {b c : Builder}

/-- What an item's vote needs is there: the successor on a terminal, and the goal
where the end of the input comes next. -/
structure Automaton.Serves (a : Automaton) (q : Nat) (it : Item) : Prop where
  shift : ∀ t, it.next = some (.terminal t) → t ≠ endName → ∃ r, (a.shifts q).lookup t = some r
  goal : it.next = some (.terminal endName) → it.production = a.grammar.goal

namespace Builder

/-! ## One row -/

def addVotes (b : Builder) (votes : Votes) : Builder := { b with votes := b.votes ++ votes }

@[simp] theorem addVotes_automaton : (b.addVotes votes).automaton = b.automaton := rfl

@[simp] theorem addVotes_current : (b.addVotes votes).current = b.current := rfl

@[simp] theorem addVotes_nil : b.addVotes [] = b := by simp [addVotes]

@[simp] theorem addVotes_addVotes (votes' : Votes) :
    (b.addVotes votes).addVotes votes' = b.addVotes (votes ++ votes') := by
  simp [addVotes]

theorem vote_result (hopen : b.current.isSome) (k : String) (m : Move) (it : Item) :
    Step.result (b.vote k m it) = .ok (b.addVotes [(k, ⟨m, it⟩)]) := by
  simp [vote, hopen, Step.result, addVotes]

theorem foldlM_reduce (hopen : b.current.isSome) (it : Item) (ts : List String) :
    ts.foldlM (fun b t => Step.result (b.reduce t it)) b =
      .ok (b.addVotes (ts.map fun t => (t, ⟨.reduce it.production, it⟩))) := by
  induction ts generalizing b with
  | nil => simp [pure, Except.pure]
  | cons t ts ih =>
    rw [List.foldlM_cons, reduce, vote_result hopen]
    simpa [bind, Except.bind] using
      ih (b := b.addVotes [(t, ⟨.reduce it.production, it⟩)]) hopen

/-- An item casts its votes. -/
theorem fillItem_eq (hopen : b.current.isSome) (hvotes : b.automaton.itemVotes follow q it = .ok votes)
    (hserves : b.automaton.Serves q it) : fillItem follow q b it = .ok (b.addVotes votes) := by
  unfold itemVotes at hvotes
  unfold fillItem
  cases hnext : it.next with
  | none =>
    simp only [hnext] at hvotes
    unfold reduceVotes at hvotes
    unfold fillReductions
    cases hts : follow.lookup it.production.lhs with
    | none => simp [hts] at hvotes
    | some ts =>
      simp only [hts] at hvotes
      cases hfind : ts.find? fun t => (b.automaton.grammar.symbolKey? t).isNone with
      | some t => simp [hfind] at hvotes
      | none =>
        simp only [hfind, Except.ok.injEq] at hvotes ⊢
        subst hvotes
        exact foldlM_reduce hopen it _
  | some x =>
    cases x with
    | nonterminal n =>
      simp only [hnext, Except.ok.injEq] at hvotes
      simp [← hvotes]
    | terminal t =>
      simp only [hnext] at hvotes
      by_cases ht : t = endName
      · subst ht
        simp only [if_pos, Except.ok.injEq] at hvotes
        simp only [if_pos, hserves.goal hnext]
        rw [← hvotes]
        exact vote_result hopen _ _ _
      · obtain ⟨r, hr⟩ := hserves.shift t hnext ht
        simp only [if_neg ht, hr, Option.toList, List.map_cons, List.map_nil,
          Except.ok.injEq] at hvotes
        simp only [if_neg ht, hr]
        rw [← hvotes]
        exact vote_result hopen _ _ _

theorem foldlM_fillItem {items : List Item} {lists : List Votes} (hopen : b.current.isSome)
    (hvotes : items.mapM (b.automaton.itemVotes follow q) = .ok lists)
    (hserves : ∀ it ∈ items, b.automaton.Serves q it) :
    items.foldlM (fillItem follow q) b = .ok (b.addVotes lists.flatten) := by
  induction items generalizing b lists with
  | nil =>
    cases hvotes
    simp [pure, Except.pure]
  | cons it items ih =>
    obtain ⟨votes, rest, hit, hrest, rfl⟩ := mapM_cons_ok hvotes
    rw [List.foldlM_cons, fillItem_eq hopen hit (hserves it (by simp))]
    simpa [bind, Except.bind] using
      ih (b := b.addVotes votes) hopen hrest fun it hit => hserves it (by simp [hit])

theorem fillGotos_eq {gotos : GotoRow} (hkeys : (gotos.map Prod.fst).Nodup)
    (hnew : ∀ n ∈ gotos.map Prod.fst, b.gotoRow.lookup n = none) :
    b.fillGotos gotos = .ok { b with gotoRow := b.gotoRow ++ gotos } := by
  induction gotos generalizing b with
  | nil => simp [fillGotos, pure, Except.pure]
  | cons e gotos ih =>
    obtain ⟨n, r⟩ := e
    obtain ⟨hn, hkeys⟩ := List.nodup_cons.mp hkeys
    have hstep : Step.result (b.goto n r) = .ok { b with gotoRow := b.gotoRow ++ [(n, r)] } := by
      simp [Builder.goto, hnew n (by simp), Step.result]
    rw [fillGotos, List.foldlM_cons, hstep]
    have hrest := ih (b := { b with gotoRow := b.gotoRow ++ [(n, r)] }) hkeys fun m hm => by
      have hne : m ≠ n := fun h => hn (h ▸ hm)
      simp [List.lookup_append, hnew m (by simp [hm]), Association.lookup_cons_ne hne]
    simpa [bind, Except.bind, fillGotos] using hrest

/-! ## Closing a row -/

theorem closeRow_eq (hopen : b.current = some q) {path : List Symbol}
    (hknown : ∀ v ∈ b.votes, (b.automaton.grammar.symbolKey? v.1).isSome)
    (hpath : b.automaton.path? q = some path) :
    b.closeRow = .ok { b with
      actions := b.actions ++ [b.votes.settled]
      gotoRowClosed := true
      current := none
      conflicts := b.conflicts ++ b.automaton.conflictsOf q b.votes } := by
  have hfind : b.votes.find? (fun v => (b.automaton.grammar.symbolKey? v.1).isNone) = none := by
    rw [List.find?_eq_none]
    intro v hv
    simpa [Option.isNone_iff_eq_none, ← Option.isSome_iff_ne_none] using hknown v hv
  have hconflicts : b.rowConflicts q = .ok (b.automaton.conflictsOf q b.votes) := by
    unfold rowConflicts conflictsOf
    rw [hpath]
    cases b.votes.contested <;> rfl
  simp [closeRow, hopen, hfind, hconflicts, Except.map]

/-- The builder with a row open that is filled, over what it is with its last row closed. -/
def withRow (c : Builder) (q : Nat) (votes : Votes) : Builder :=
  { c with
    earlierGotos := c.gotos
    gotoRow := c.automaton.gotos q
    gotoRowClosed := false
    current := some q
    votes := votes }

theorem fillRow_eq (hclose : b.closeRow = .ok c) (hq : c.actions.length = q)
    (hvotes : c.automaton.stateVotes follow q = .ok votes)
    (hserves : ∀ it ∈ c.automaton.items q, c.automaton.Serves q it)
    (hkeys : ((c.automaton.gotos q).map Prod.fst).Nodup) :
    fillRow follow b q = .ok (c.withRow q votes) := by
  -- the row is opened,
  let opened : Builder := { c with
    earlierGotos := c.gotos, gotoRow := [], gotoRowClosed := false, current := some q, votes := [] }
  have hopen : Step.result (b.newRow q) = .ok opened := by
    simp [newRow, hclose, hq, Step.result, opened]
  -- its items vote,
  have hitems : (c.automaton.items q).foldlM (fillItem follow q) opened =
      .ok (opened.addVotes votes) := by
    obtain ⟨lists, hlists, rfl⟩ := stateVotes_ok hvotes
    exact foldlM_fillItem rfl hlists hserves
  -- and its gotos are put in
  have hgotos : (opened.addVotes votes).fillGotos (c.automaton.gotos q) =
      .ok (c.withRow q votes) := by
    rw [fillGotos_eq hkeys (by simp [opened, addVotes])]
    simp [opened, addVotes, withRow]
  rw [fillRow, hopen]
  simp only [bind, Except.bind]
  rw [show opened.automaton = c.automaton from rfl, hitems]
  exact hgotos

/-- A builder without an open row that holds the rows of the first states. -/
structure Holds (a : Automaton) (rows : List Votes) (b : Builder) : Prop where
  automaton : b.automaton = a
  actions : b.actions = rows.map Votes.settled
  gotos : b.gotos = (List.range rows.length).map a.gotos
  conflicts : b.conflicts = (rows.mapIdx a.conflictsOf).flatten

theorem holds_ofAutomaton (a : Automaton) : Holds a [] (.ofAutomaton a) := ⟨rfl, rfl, rfl, rfl⟩

/-- A row that was filled is there once it has been closed. -/
theorem closeRow_holds (h : Holds a rows c)
    (hknown : ∀ v ∈ votes, (a.grammar.symbolKey? v.1).isSome) {path : List Symbol}
    (hpath : a.path? rows.length = some path) :
    ∃ c', (c.withRow rows.length votes).closeRow = .ok c' ∧ Holds a (rows ++ [votes]) c' := by
  obtain ⟨rfl, hactions, hgotos, hconflicts⟩ := h
  refine ⟨_, closeRow_eq (b := c.withRow rows.length votes) rfl hknown hpath, rfl, ?_, ?_, ?_⟩
  · simp [withRow, hactions]
  · simp [withRow, Builder.gotos, List.range_succ, ← hgotos]
  · simp [withRow, hconflicts, List.mapIdx_append]

end Builder

/-! ## Nothing stops the filling -/

namespace Automaton

theorem known_of_itemVotes {v : String × Vote} (hp : it.production ∈ a.grammar.productions)
    (h : a.itemVotes follow q it = .ok votes) (hv : v ∈ votes) :
    (a.grammar.symbolKey? v.1).isSome := by
  unfold itemVotes at h
  cases hnext : it.next with
  | none =>
    simp only [hnext] at h
    unfold reduceVotes at h
    cases hts : follow.lookup it.production.lhs with
    | none => simp [hts] at h
    | some ts =>
      simp only [hts] at h
      split at h
      · cases h
      · rename_i hfind
        cases h
        obtain ⟨t, ht, rfl⟩ := List.mem_map.mp hv
        have hnot := List.find?_eq_none.mp hfind t (mem_sortNames.mp ht)
        simpa [← Option.isSome_iff_ne_none] using hnot
  | some x =>
    cases x with
    | nonterminal n =>
      simp only [hnext, Except.ok.injEq] at h
      simp [← h] at hv
    | terminal t =>
      have hkey : (a.grammar.symbolKey? t).isSome :=
        Grammar.symbolKey?_isSome (Grammar.mem_terminals.mpr ⟨_, hp, Item.next_mem_rhs hnext⟩)
      simp only [hnext] at h
      split at h
      · cases h
        rwa [List.mem_singleton.mp hv]
      · cases h
        obtain ⟨j, -, rfl⟩ := List.mem_map.mp hv
        exact hkey

namespace Canonical

variable (h : Canonical g a)

include h

theorem production_mem (hit : it ∈ a.items q) : it.production ∈ g.productions := by
  obtain ⟨qs, xs, way⟩ := h.reached q (lt_of_mem_items hit)
  exact ((h.mem_items_iff way).mp hit).production_mem

theorem serves (hit : it ∈ a.items q) : a.Serves q it where
  shift := fun t hnext ht => by
    obtain ⟨r, edge⟩ := h.exists_edge hit hnext (by simpa using ht)
    exact ⟨r, by rw [lookup_shifts, edge]⟩
  goal := fun hnext => by
    rw [h.grammar_eq]
    exact Grammar.eq_goal_of_end_mem (h.production_mem hit) (Item.next_mem_rhs hnext)

/-- A state's successors are on different symbols. -/
theorem successors_nodup (q : Nat) : ((a.successorsOf q).map Prod.fst).Nodup := by
  by_cases hq : q < a.states.length
  · rw [(h.row_of_lt hq).keys]
    exact g.alphabet_nodup.filter _
  · simp [h.successorsOf_of_le (Nat.le_of_not_lt hq)]

theorem gotos_nodup (q : Nat) : ((a.gotos q).map Prod.fst).Nodup := by
  have hkeys : (a.gotos q).map Prod.fst =
      ((a.successorsOf q).map Prod.fst).filterMap Symbol.nonterminalName? := by
    rw [gotos, List.map_filterMap, List.filterMap_map]
    congr 1
    funext e
    obtain ⟨x, r⟩ := e
    cases x <;> rfl
  rw [hkeys]
  refine (h.successors_nodup q).filterMap ?_
  intro x y n hx hy
  cases x <;> cases y <;> simp_all [Symbol.nonterminalName?]

theorem known {v : String × Vote} (hvotes : a.stateVotes follow q = .ok votes) (hv : v ∈ votes) :
    (a.grammar.symbolKey? v.1).isSome := by
  obtain ⟨lists, hlists, rfl⟩ := stateVotes_ok hvotes
  obtain ⟨l, hl, hv⟩ := List.mem_flatten.mp hv
  obtain ⟨it, hit, hitem⟩ := (mem_of_mapM hlists).mp hl
  exact known_of_itemVotes (h.grammar_eq ▸ h.production_mem hit) hitem hv

/-! ## The whole table -/

theorem fill_rows {all : List Votes} (hall : a.allVotes follow = .ok all) {n : Nat}
    (hn : n ≤ a.size) :
    ∃ b c, (List.range n).foldlM (Builder.fillRow follow) (.ofAutomaton a) = .ok b ∧
      b.closeRow = .ok c ∧ Builder.Holds a (all.take n) c := by
  induction n with
  | zero => exact ⟨_, _, rfl, rfl, Builder.holds_ofAutomaton a⟩
  | succ n ih =>
    obtain ⟨b, c, hfill, hclose, hholds⟩ := ih (by omega)
    obtain ⟨votes, hget, hvotes⟩ := mapM_getElem? hall (List.getElem?_range hn)
    have hlength : (all.take n).length = n := by
      have hlength := mapM_length hall
      rw [List.length_range] at hlength
      rw [List.length_take]
      omega
    obtain ⟨path, -, hpath, -⟩ := h.path?_spec hn
    obtain ⟨c', hclose', hholds'⟩ := Builder.closeRow_holds hholds
      (fun v hv => h.known hvotes hv) (hlength.symm ▸ hpath)
    have hrow : Builder.fillRow follow b n = .ok (c.withRow n votes) := by
      have hautomaton := hholds.automaton
      subst hautomaton
      exact Builder.fillRow_eq hclose (by simpa [hholds.actions] using hlength) hvotes
        (fun it hit => h.serves hit) (h.gotos_nodup n)
    refine ⟨c.withRow n votes, c', ?_, hlength ▸ hclose', ?_⟩
    · rw [List.range_succ, List.foldlM_append, hfill]
      simp [bind, Except.bind, hrow, pure, Except.pure]
    · rw [List.take_add_one, hget]
      exact hholds'

/-- The builder makes a table of the votes, or reports the conflicts among them. -/
theorem fill_eq {all : List Votes} (hall : a.allVotes follow = .ok all) :
    a.fill follow = match (all.mapIdx a.conflictsOf).flatten with
      | [] => .ok (a.tableOf (all.map Votes.settled) ((List.range a.size).map a.gotos))
      | found => .error (.builder (.conflicts found)) := by
  obtain ⟨b, c, hfill, hclose, rfl, hactions, hgotos, hconflicts⟩ :=
    h.fill_rows hall (Nat.le_refl _)
  have hlength : all.length = c.automaton.size := by simpa using mapM_length hall
  rw [← hlength, List.take_length] at hactions hgotos hconflicts
  rw [fill, hfill]
  simp only [bind, Except.bind, Builder.flush, hclose, ← hconflicts]
  cases c.conflicts with
  | nil => simp [Except.mapError, hactions, hgotos, hlength]
  | cons found rest => rfl

end Canonical

end Automaton

end Slr
