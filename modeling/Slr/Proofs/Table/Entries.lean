import Slr.Proofs.Automaton.Viable
import Slr.Proofs.Lookahead.Follow
import Slr.Proofs.Table.Votes

/-! # What the entries of a table say

A table that was built has a shift exactly where an item expects a terminal, a
reduction exactly where an item is at its end and the lookahead sets allow it,
acceptance exactly where the end of the input comes next, and the automaton's
gotos. These facts are all that the parsers' theorems use of the construction;
the lookahead sets may be any. -/

namespace Slr

namespace Table

variable {t : Table} {q : Nat} {k : String}

theorem mem_expected_iff : k ∈ t.expected q ↔ ∃ m, t.move? q k = some m := by
  rw [expected, mem_sortNames, move?]
  constructor
  · intro h
    obtain ⟨⟨k', m⟩, hm, rfl⟩ := List.mem_map.mp h
    exact Association.exists_lookup hm
  · intro h
    obtain ⟨m, hm⟩ := h
    exact List.mem_map.mpr ⟨(k, m), Association.mem_of_lookup hm, rfl⟩

/-- The entries of a table and the items and edges of an automaton. -/
structure Renders (t : Table) (a : Automaton) (follow : Lookahead) : Prop where
  shift : ∀ {q k r}, t.move? q k = some (.shift r) →
    k ≠ endName ∧ (a.successorsOf q).lookup (.terminal k) = some r
  reduce : ∀ {q k p}, t.move? q k = some (.reduce p) →
    ∃ it ∈ a.items q, it.production = p ∧ it.next = none
  accept : ∀ {q k}, t.move? q k = some .accept →
    k = endName ∧ ∃ it ∈ a.items q, it.next = some (.terminal endName)
  shift_of : ∀ {q k r it}, it ∈ a.items q → it.next = some (.terminal k) → k ≠ endName →
    (a.successorsOf q).lookup (.terminal k) = some r → t.move? q k = some (.shift r)
  reduce_of : ∀ {q k it ts}, it ∈ a.items q → it.next = none →
    follow.lookup it.production.lhs = some ts → k ∈ ts →
    t.move? q k = some (.reduce it.production)
  accept_of : ∀ {q it}, it ∈ a.items q → it.next = some (.terminal endName) →
    t.move? q endName = some .accept
  goto : ∀ q n, t.goto? q n = (a.successorsOf q).lookup (.nonterminal n)
  depth : ∀ q, t.depth q = a.depth q

end Table

namespace Automaton

variable {g : Grammar} {a : Automaton} {follow : Lookahead} {t : Table} {q : Nat} {it : Item}
  {k : String} {v : Vote} {votes : Votes}

/-! ## Votes of an item -/

theorem lookup_shifts (a : Automaton) (q : Nat) (k : String) :
    (a.shifts q).lookup k = (a.successorsOf q).lookup (.terminal k) :=
  Association.lookup_rename Symbol.terminalName? fun x => by
    cases x <;> simp [Symbol.terminalName?]

theorem lookup_gotos (a : Automaton) (q : Nat) (n : String) :
    (a.gotos q).lookup n = (a.successorsOf q).lookup (.nonterminal n) :=
  Association.lookup_rename Symbol.nonterminalName? fun x => by
    cases x <;> simp [Symbol.nonterminalName?]

theorem reduceVotes_ok (h : a.reduceVotes follow it = .ok votes) :
    ∃ ts, follow.lookup it.production.lhs = some ts ∧
      votes = (sortNames ts).map fun t => (t, ⟨.reduce it.production, it⟩) := by
  unfold reduceVotes at h
  cases hts : follow.lookup it.production.lhs with
  | none => simp [hts] at h
  | some ts =>
    refine ⟨ts, rfl, ?_⟩
    simp only [hts] at h
    split at h
    · cases h
    · exact (Except.ok.inj h).symm

/-- What an item votes for, by what comes next in it. -/
def VotesFor (a : Automaton) (follow : Lookahead) (q : Nat) (it : Item) (k : String) (m : Move) :
    Prop :=
  match it.next with
  | none => ∃ ts, follow.lookup it.production.lhs = some ts ∧ k ∈ ts ∧ m = .reduce it.production
  | some (.nonterminal _) => False
  | some (.terminal s) =>
    k = s ∧ if s = endName then m = .accept
      else ∃ r, (a.successorsOf q).lookup (.terminal s) = some r ∧ m = .shift r

/-- What a vote can be: a reduction at the end of an item, the acceptance of the
end of the input, or a shift along an edge. -/
theorem votesFor_cases {m : Move} (h : a.VotesFor follow q it k m) :
    (it.next = none ∧ m = .reduce it.production) ∨
      (it.next = some (.terminal endName) ∧ k = endName ∧ m = .accept) ∨
      ∃ r, it.next = some (.terminal k) ∧ k ≠ endName ∧
        (a.successorsOf q).lookup (.terminal k) = some r ∧ m = .shift r := by
  unfold VotesFor at h
  split at h
  · rename_i hnext
    obtain ⟨ts, -, -, hm⟩ := h
    exact Or.inl ⟨hnext, hm⟩
  · exact h.elim
  · rename_i s hnext
    obtain ⟨rfl, h⟩ := h
    split at h
    · rename_i hs
      exact Or.inr (Or.inl ⟨hs ▸ hnext, hs, h⟩)
    · rename_i hs
      obtain ⟨r, hr, hm⟩ := h
      exact Or.inr (Or.inr ⟨r, hnext, hs, hr, hm⟩)

theorem mem_itemVotes (h : a.itemVotes follow q it = .ok votes) :
    (k, v) ∈ votes ↔ a.VotesFor follow q it k v.move ∧ v.item = it := by
  unfold itemVotes at h
  unfold VotesFor
  cases hnext : it.next with
  | none =>
    simp only [hnext] at h
    obtain ⟨ts, hts, rfl⟩ := reduceVotes_ok h
    simp only [List.mem_map, mem_sortNames, Prod.mk.injEq, hts, Option.some.injEq]
    constructor
    · intro h
      obtain ⟨s, hs, rfl, rfl⟩ := h
      exact ⟨⟨ts, rfl, hs, rfl⟩, rfl⟩
    · intro h
      obtain ⟨⟨_, rfl, hk, hm⟩, hv⟩ := h
      exact ⟨k, hk, rfl, by cases v; simp_all⟩
  | some x =>
    cases x with
    | nonterminal n =>
      simp only [hnext, Except.ok.injEq] at h
      simp [← h]
    | terminal s =>
      simp only [hnext] at h
      split at h
      · rename_i hs
        cases h
        cases v
        simp [hs, and_assoc]
      · rename_i hs
        cases h
        rw [lookup_shifts]
        cases v
        cases hr : (a.successorsOf q).lookup (.terminal s) <;> simp [hs, hr, and_assoc]

theorem stateVotes_ok (h : a.stateVotes follow q = .ok votes) :
    ∃ lists, (a.items q).mapM (a.itemVotes follow q) = .ok lists ∧ votes = lists.flatten := by
  unfold stateVotes at h
  cases hlists : (a.items q).mapM (a.itemVotes follow q) with
  | error e => simp [hlists, Except.map] at h
  | ok lists =>
    simp only [hlists, Except.map, Except.ok.injEq] at h
    exact ⟨lists, rfl, h.symm⟩

theorem mem_stateVotes (h : a.stateVotes follow q = .ok votes) :
    (k, v) ∈ votes ↔ ∃ it ∈ a.items q, a.VotesFor follow q it k v.move ∧ v.item = it := by
  obtain ⟨lists, hlists, rfl⟩ := stateVotes_ok h
  rw [List.mem_flatten]
  constructor
  · intro h
    obtain ⟨l, hl, hmem⟩ := h
    obtain ⟨it, hit, hvotes⟩ := (mem_of_mapM hlists).mp hl
    exact ⟨it, hit, (mem_itemVotes hvotes).mp hmem⟩
  · intro h
    obtain ⟨it, hit, hfor⟩ := h
    obtain ⟨i, hi⟩ := List.mem_iff_getElem?.mp hit
    obtain ⟨l, hl, hvotes⟩ := mapM_getElem? hlists hi
    exact ⟨l, List.mem_of_getElem? hl, (mem_itemVotes hvotes).mpr hfor⟩

/-! ## The table -/

theorem table_ok (h : a.table follow = .ok t) :
    ∃ votes, a.allVotes follow = .ok votes ∧ (votes.mapIdx a.conflictsOf).flatten = [] ∧
      t = a.tableOf (votes.map Votes.settled) ((List.range a.size).map a.gotos) := by
  unfold table at h
  cases hv : a.allVotes follow with
  | error e => simp [hv] at h
  | ok votes =>
    simp only [hv] at h
    split at h
    · rename_i hnone
      exact ⟨votes, rfl, hnone, (Except.ok.inj h).symm⟩
    · cases h

/-- The row of a state is settled by its votes, none of which is contested. -/
theorem table_row (h : a.table follow = .ok t) (hq : q < a.size) :
    ∃ votes, a.stateVotes follow q = .ok votes ∧ votes.contested = [] ∧ t.row q = votes.settled := by
  obtain ⟨all, hall, hnone, rfl⟩ := table_ok h
  obtain ⟨votes, hvotes, hstate⟩ := mapM_getElem? hall (List.getElem?_range hq)
  refine ⟨votes, hstate, ?_, by simp [Table.row, tableOf, hvotes]⟩
  have hmem : a.conflictsOf q votes ∈ all.mapIdx a.conflictsOf :=
    List.mem_of_getElem? (i := q) (by simp [List.getElem?_mapIdx, hvotes])
  have hempty := List.flatten_eq_nil_iff.mp hnone _ hmem
  simpa [conflictsOf] using hempty

theorem table_row_of_size_le (h : a.table follow = .ok t) (hq : a.size ≤ q) : t.row q = [] := by
  obtain ⟨all, hall, -, rfl⟩ := table_ok h
  have hlen : all.length = a.size := by simpa using mapM_length hall
  have hout : all[q]? = none := List.getElem?_eq_none_iff.mpr (by omega)
  simp [Table.row, tableOf, hout]

/-- Without conflicts a state makes exactly the moves that its items vote for. -/
theorem move?_eq_some_iff (h : a.table follow = .ok t) {m : Move} :
    t.move? q k = some m ↔ ∃ it ∈ a.items q, a.VotesFor follow q it k m := by
  by_cases hq : q < a.size
  · obtain ⟨votes, hstate, hnone, hrow⟩ := table_row h hq
    rw [Table.move?, hrow]
    constructor
    · intro hm
      obtain ⟨v, hv, rfl⟩ := Votes.exists_vote_of_lookup hm
      obtain ⟨it, hit, hfor, -⟩ := (mem_stateVotes hstate).mp hv
      exact ⟨it, hit, hfor⟩
    · intro h
      obtain ⟨it, hit, hfor⟩ := h
      exact Votes.lookup_of_vote (v := ⟨m, it⟩) hnone ((mem_stateVotes hstate).mpr ⟨it, hit, hfor, rfl⟩)
  · rw [Table.move?, table_row_of_size_le h (by omega)]
    constructor
    · intro hm
      cases hm
    · intro h
      obtain ⟨it, hit, -⟩ := h
      exact absurd (lt_of_mem_items hit) hq

theorem goto?_eq (hc : Canonical g a) (h : a.table follow = .ok t) (q : Nat) (n : String) :
    t.goto? q n = (a.successorsOf q).lookup (.nonterminal n) := by
  obtain ⟨all, -, -, rfl⟩ := table_ok h
  rw [← lookup_gotos, Table.goto?, Table.gotoRow, tableOf]
  by_cases hq : q < a.size
  · simp [List.getElem?_range hq]
  · have hrange : (List.range a.size)[q]? = none :=
      List.getElem?_eq_none_iff.mpr (by simpa using Nat.le_of_not_lt hq)
    simp [hrange, gotos, hc.successorsOf_of_le (Nat.le_of_not_lt hq)]

theorem depth_eq (h : a.table follow = .ok t) (q : Nat) : t.depth q = a.depth q := by
  obtain ⟨all, -, -, rfl⟩ := table_ok h
  simp only [Table.depth, tableOf, depth, items, List.getElem?_map]
  cases a.states[q]? <;> rfl

/-- A table that was built renders its automaton. -/
theorem table_renders (hc : Canonical g a) (h : a.table follow = .ok t) : t.Renders a follow where
  shift := fun hm => by
    obtain ⟨it, hit, hfor⟩ := (move?_eq_some_iff h).mp hm
    rcases votesFor_cases hfor with ⟨-, hm⟩ | ⟨-, -, hm⟩ | ⟨r, -, hk, hr, hm⟩
    · cases hm
    · cases hm
    · cases hm
      exact ⟨hk, hr⟩
  reduce := fun hm => by
    obtain ⟨it, hit, hfor⟩ := (move?_eq_some_iff h).mp hm
    rcases votesFor_cases hfor with ⟨hnext, hm⟩ | ⟨-, -, hm⟩ | ⟨r, -, -, -, hm⟩
    · cases hm
      exact ⟨it, hit, rfl, hnext⟩
    · cases hm
    · cases hm
  accept := fun hm => by
    obtain ⟨it, hit, hfor⟩ := (move?_eq_some_iff h).mp hm
    rcases votesFor_cases hfor with ⟨-, hm⟩ | ⟨hnext, hk, -⟩ | ⟨r, -, -, -, hm⟩
    · cases hm
    · exact ⟨hk, it, hit, hnext⟩
    · cases hm
  shift_of := fun {q k r it} hit hnext hk hr =>
    (move?_eq_some_iff h).mpr ⟨it, hit, by simp [VotesFor, hnext, hk, hr]⟩
  reduce_of := fun {q k it ts} hit hnext hts hk =>
    (move?_eq_some_iff h).mpr ⟨it, hit, by simp [VotesFor, hnext, hts, hk]⟩
  accept_of := fun {q it} hit hnext =>
    (move?_eq_some_iff h).mpr ⟨it, hit, by simp [VotesFor, hnext]⟩
  goto := goto?_eq hc h
  depth := depth_eq h

end Automaton

/-! ## The table of a grammar -/

namespace Grammar

variable {g : Grammar} {t : Table}

theorem table_renders (h : g.table = .ok t) : t.Renders (.build g) g.follow :=
  Automaton.table_renders (Automaton.build_canonical g) h

theorem symbolKey?_isSome {k : String} (hk : k ∈ g.terminals) : (g.symbolKey? k).isSome = true := by
  obtain ⟨i, hi⟩ := List.mem_iff_getElem?.mp (terminal_mem_alphabet.mpr hk)
  exact Option.isSome_iff_exists.mpr ⟨i, symbolKey?_eq hi⟩

/-- An item at its end has a lookahead set, of terminals of the grammar. -/
theorem reduceVotes_total {a : Automaton} (hc : Automaton.Canonical g a) {q : Nat} {it : Item}
    (hit : it ∈ a.items q) (hnext : it.next = none) :
    ∃ votes, a.reduceVotes g.follow it = .ok votes := by
  obtain ⟨qs, xs, way⟩ := hc.reached q (Automaton.lt_of_mem_items hit)
  have hvalid := (hc.mem_items_iff way).mp hit
  have hp := hvalid.production_mem
  have hlhs : it.production.lhs ≠ goalName := fun h =>
    hvalid.production_ne_goal hnext (eq_goal_of_lhs hp h)
  have hn : it.production.lhs ∈ g.nonterminals := mem_nonterminals.mpr ⟨_, hp, rfl⟩
  have hfind : (g.followOf (FirstSets.ofGrammar g) it.production.lhs).find?
      (fun t => (a.grammar.symbolKey? t).isNone) = none := by
    rw [List.find?_eq_none]
    intro k hk
    have hkey := symbolKey?_isSome ((mem_followOf_iff hn).mp hk).1
    simp [hc.grammar_eq, Option.isSome_iff_ne_none.mp hkey]
  exact ⟨_, by rw [Automaton.reduceVotes, follow_lookup hn hlhs]; simp only [hfind]; rfl⟩

/-- All items of all states can vote. -/
theorem exists_allVotes (g : Grammar) :
    ∃ votes, (Automaton.build g).allVotes g.follow = .ok votes := by
  have hc := Automaton.build_canonical g
  apply exists_mapM
  intro q hq
  have hitems : ∃ lists, ((Automaton.build g).items q).mapM
      ((Automaton.build g).itemVotes g.follow q) = .ok lists := by
    apply exists_mapM
    intro it hit
    unfold Automaton.itemVotes
    split
    · rename_i hnext
      exact reduceVotes_total hc hit hnext
    · exact ⟨_, rfl⟩
    · split <;> exact ⟨_, rfl⟩
  obtain ⟨lists, hlists⟩ := hitems
  exact ⟨lists.flatten, by rw [Automaton.stateVotes, hlists]; rfl⟩

/-- The table of a grammar is built, or it has conflicts. -/
theorem table_ok_or_conflicts (g : Grammar) :
    (∃ t, g.table = .ok t) ∨ ∃ found, g.table = .error (.conflicts found) := by
  obtain ⟨votes, hvotes⟩ := g.exists_allVotes
  rw [table, Automaton.table, hvotes]
  simp only
  split
  · exact Or.inl ⟨_, rfl⟩
  · exact Or.inr ⟨_, rfl⟩

end Grammar

end Slr
