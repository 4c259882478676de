import Slr.Proofs.Table.Filling

/-! # The table is the votes, or the conflicts are

Every item of a state votes on every terminal at most once. A table is made exactly
if no two votes of a state on a terminal differ, and then holds each vote and nothing
else. Otherwise each cell with different votes is reported once, with all its votes.
There is no third outcome, also not for the builder, which looks everything up. -/

namespace Slr

open Automaton

variable {g : Grammar} {q : Nat} {k : String} {it : Item} {m : Move} {v : Vote} {votes : Votes}
  {t : Table} {found : List Conflict}

/-! ## What items vote for -/

theorem Move.isReduce_iff : m.isReduce = true ↔ ∃ p, m = .reduce p := by
  cases m <;> simp [isReduce]

namespace Grammar

/-- What an item of a state votes for on a terminal: at its end for its reduction, if
the terminal may follow; before the terminal for the shift to its state's successor;
before the end of the input for acceptance, as the goal. -/
def vote? (g : Grammar) (q : Nat) (k : String) (it : Item) : Option Move :=
  match it.next with
  | none =>
    if k ∈ (g.follow.lookup it.production.lhs).getD [] then some (.reduce it.production) else none
  | some x =>
    if x ≠ .terminal k then none
    else if k ≠ endName then (((Automaton.build g).successorsOf q).lookup x).map .shift
    else if it.production = g.goal then some .accept else none

/-- The votes in a state on a terminal, in the order of the items. -/
def votesOn (g : Grammar) (q : Nat) (k : String) : List Vote :=
  ((Automaton.build g).items q).filterMap fun it => (g.vote? q k it).map (⟨·, it⟩)

/-- Two votes in a state on a terminal differ. -/
def Contested (g : Grammar) (q : Nat) (k : String) : Prop :=
  ∃ v ∈ g.votesOn q k, ∃ w ∈ g.votesOn q k, v.move ≠ w.move

/-- What stands ready before the table: a FIRST set of each symbol of a production, and
an item in each state. -/
structure Supplied (g : Grammar) : Prop where
  firsts : ∀ p ∈ g.productions, ∀ x ∈ p.rhs, ((FirstSets.ofGrammar g).first? x).isSome
  items : ∀ q < (Automaton.build g).size, (Automaton.build g).items q ≠ []

/-- A table that holds the votes, and the automaton's edges over nonterminals. -/
structure Exact (g : Grammar) (t : Table) : Prop where
  size : t.actions.length = (Automaton.build g).size
  ordered : ∀ q, (t.row q).Pairwise fun e e' => e.1 < e'.1
  move : ∀ q k m, t.move? q k = some m ↔ ∃ v ∈ g.votesOn q k, v.move = m
  gotos : t.gotos = (Automaton.build g).successors.map fun row =>
    row.filterMap fun e => e.1.nonterminalName?.map (·, e.2)

/-- Conflicts that name each contested cell once, in order, with all its votes. -/
structure Reports (g : Grammar) (found : List Conflict) : Prop where
  cells : ∀ q k, g.Contested q k ↔ ∃ c ∈ found, c.state = q ∧ c.terminal = k
  ordered : found.Pairwise fun c d =>
    c.state < d.state ∨ (c.state = d.state ∧ c.terminal < d.terminal)
  actions : ∀ c ∈ found,
    c.actions = (g.votesOn c.state c.terminal).map fun v => (v.item.text, v.move.advice)
  kind : ∀ c ∈ found,
    c.kind = .reduceReduce ↔ ∀ v ∈ g.votesOn c.state c.terminal, ∃ p, v.move = .reduce p
  path : ∀ c ∈ found, ∃ (qs : List Nat) (path : List Symbol),
    (Automaton.build g).Spells (c.state :: qs) path.reverse ∧ c.path = path.map Symbol.name

end Grammar

namespace Votes

/-! ## Votes on one terminal -/

theorem for_map_of_nodup {ts : List String} (h : ts.Nodup) :
    Votes.for (ts.map fun t => (t, v)) k = if k ∈ ts then [v] else [] := by
  induction ts with
  | nil => rfl
  | cons t ts ih =>
    obtain ⟨ht, hts⟩ := List.nodup_cons.mp h
    have hcons : Votes.for ((t :: ts).map fun t => (t, v)) k =
        (if t = k then [v] else []) ++ Votes.for (ts.map fun t => (t, v)) k := by
      by_cases htk : t = k <;> simp [Votes.for, htk]
    rw [hcons, ih hts]
    by_cases htk : t = k
    · subst htk
      simp [ht]
    · simp [htk, Ne.symm htk]

theorem for_flatten (lists : List Votes) :
    Votes.for lists.flatten k = (lists.map (Votes.for · k)).flatten := by
  simp [Votes.for, List.filterMap_flatten]

theorem eraseDups_of_forall_eq {l : List Move} (h : ∀ m ∈ l, ∀ n ∈ l, m = n) (hm : m ∈ l) :
    l.eraseDups = [m] := by
  cases l with
  | nil => cases hm
  | cons n l =>
    obtain rfl : m = n := h m hm n (by simp)
    have hrest : l.filter (fun b => !b == m) = [] := by
      rw [List.filter_eq_nil_iff]
      intro n hn
      simp [h n (by simp [hn]) m (by simp)]
    rw [List.eraseDups_cons, hrest]
    rfl

/-- A terminal is contested if two votes for it differ. -/
theorem mem_contested_iff :
    k ∈ votes.contested ↔ ∃ v ∈ votes.for k, ∃ w ∈ votes.for k, v.move ≠ w.move := by
  have hmoves {m : Move} : m ∈ votes.moves k ↔ ∃ v ∈ votes.for k, v.move = m := by
    simp [moves]
  constructor
  · intro h
    obtain ⟨hk, hmany⟩ := List.mem_filter.mp h
    obtain ⟨v, hv⟩ := mem_terminals_iff.mp hk
    by_contra hsame
    push Not at hsame
    have hone : votes.moves k = [v.move] := by
      refine eraseDups_of_forall_eq ?_ (List.mem_map_of_mem (mem_for_iff.mpr hv))
      intro m hm n hn
      obtain ⟨w, hw, rfl⟩ := List.mem_map.mp hm
      obtain ⟨u, hu, rfl⟩ := List.mem_map.mp hn
      exact hsame w hw u hu
    simp [hone] at hmany
  · intro h
    obtain ⟨v, hv, w, hw, hne⟩ := h
    refine List.mem_filter.mpr ⟨mem_terminals_iff.mpr ⟨v, mem_for_iff.mp hv⟩, ?_⟩
    have hv' := hmoves.mpr ⟨v, hv, rfl⟩
    have hw' := hmoves.mpr ⟨w, hw, rfl⟩
    cases hlist : votes.moves k with
    | nil => rfl
    | cons m rest =>
      cases rest with
      | cons n rest => rfl
      | nil =>
        rw [hlist, List.mem_singleton] at hv' hw'
        exact absurd (hv'.trans hw'.symm) hne

theorem settled_pairwise (votes : Votes) : votes.settled.Pairwise fun e e' => e.1 < e'.1 := by
  rw [settled_eq, List.pairwise_filterMap]
  refine (sortNames_pairwise _).imp ?_
  intro s t hlt e he e' he'
  obtain ⟨m, -, rfl⟩ := Option.map_eq_some_iff.mp he
  obtain ⟨n, -, rfl⟩ := Option.map_eq_some_iff.mp he'
  exact hlt

theorem contested_pairwise (votes : Votes) : votes.contested.Pairwise (· < ·) :=
  (sortNames_pairwise _).filter _

end Votes

namespace Grammar

/-! ## The votes of a state -/

theorem for_itemVotes (hit : it ∈ (Automaton.build g).items q)
    (h : (Automaton.build g).itemVotes g.follow q it = .ok votes) :
    votes.for k = ((g.vote? q k it).map (⟨·, it⟩ : Move → Vote)).toList := by
  have hc := Automaton.build_canonical g
  have hserves := hc.serves hit
  unfold itemVotes at h
  unfold vote?
  cases hnext : it.next with
  | none =>
    simp only [hnext] at h
    obtain ⟨ts, hts, rfl⟩ := reduceVotes_ok h
    rw [Votes.for_map_of_nodup (sortNames_nodup ts), hts]
    by_cases hk : k ∈ ts <;> simp [mem_sortNames, hk]
  | some x =>
    cases x with
    | nonterminal n =>
      simp only [hnext, Except.ok.injEq] at h
      simp [← h, Votes.for]
    | terminal s =>
      simp only [hnext] at h
      by_cases hs : s = endName
      · have hgoal : it.production = g.goal := by
          rw [hserves.goal (hs ▸ hnext), hc.grammar_eq]
        simp only [hs, if_pos, Except.ok.injEq] at h
        subst h
        by_cases hk : endName = k
        · subst hk
          simp [Votes.for, hs, hgoal]
        · simp [Votes.for, hs, hk]
      · simp only [if_neg hs, Except.ok.injEq] at h
        subst h
        rw [lookup_shifts]
        by_cases hk : s = k
        · subst hk
          cases hr : ((Automaton.build g).successorsOf q).lookup (.terminal s) <;>
            simp [Votes.for, hs, hr]
        · cases ((Automaton.build g).successorsOf q).lookup (.terminal s) <;>
            simp [Votes.for, hk]

theorem for_lists {items : List Item} {lists : List Votes}
    (hitems : ∀ it ∈ items, it ∈ (Automaton.build g).items q)
    (h : items.mapM ((Automaton.build g).itemVotes g.follow q) = .ok lists) :
    Votes.for lists.flatten k = items.filterMap fun it => (g.vote? q k it).map (⟨·, it⟩) := by
  rw [Votes.for_flatten]
  induction items generalizing lists with
  | nil =>
    cases h
    rfl
  | cons it items ih =>
    obtain ⟨votes, rest, hit, hrest, rfl⟩ := mapM_cons_ok h
    rw [List.map_cons, List.flatten_cons, for_itemVotes (hitems it (by simp)) hit,
      ih (fun it hit => hitems it (by simp [hit])) hrest, List.filterMap_cons]
    cases g.vote? q k it <;> rfl

theorem for_stateVotes (h : (Automaton.build g).stateVotes g.follow q = .ok votes) :
    votes.for k = g.votesOn q k := by
  obtain ⟨lists, hlists, rfl⟩ := stateVotes_ok h
  exact for_lists (fun _ hit => hit) hlists

theorem lt_of_mem_votesOn (h : v ∈ g.votesOn q k) : q < (Automaton.build g).size := by
  obtain ⟨it, hit, -⟩ := List.mem_filterMap.mp h
  exact lt_of_mem_items hit

theorem Contested.lt (h : g.Contested q k) : q < (Automaton.build g).size := by
  obtain ⟨v, hv, -⟩ := h
  exact lt_of_mem_votesOn hv

/-! ## The table -/

theorem supplied (g : Grammar) : g.Supplied where
  firsts := fun p hp x hx => by rw [first?_eq (mem_alphabet_of_mem_rhs hp hx)]; rfl
  items := fun q hq => by
    obtain ⟨qs, xs, way⟩ := (Automaton.build_canonical g).reached q hq
    obtain ⟨it, hit⟩ := (Automaton.build_canonical g).exists_item way
    exact List.ne_nil_of_mem hit

theorem exact_of_table (ht : g.table = .ok t) : g.Exact t := by
  have hc := Automaton.build_canonical g
  have hrow {q : Nat} (hq : q < (Automaton.build g).size) : ∃ votes : Votes,
      votes.contested = [] ∧ t.row q = votes.settled ∧ ∀ k, votes.for k = g.votesOn q k := by
    obtain ⟨votes, hvotes, hnone, hrow⟩ := table_row ht hq
    exact ⟨votes, hnone, hrow, fun k => for_stateVotes hvotes⟩
  obtain ⟨all, hall, -, rfl⟩ := table_ok ht
  refine ⟨?_, ?_, ?_, ?_⟩
  · simpa [tableOf] using mapM_length hall
  · intro q
    by_cases hq : q < (Automaton.build g).size
    · obtain ⟨votes, -, hrow, -⟩ := hrow hq
      rw [hrow]
      exact votes.settled_pairwise
    · rw [table_row_of_size_le ht (Nat.le_of_not_lt hq)]
      exact .nil
  · intro q k m
    by_cases hq : q < (Automaton.build g).size
    · obtain ⟨votes, hnone, hrow, hfor⟩ := hrow hq
      rw [Table.move?, hrow, ← hfor]
      constructor
      · intro hm
        obtain ⟨v, hv, hmove⟩ := Votes.exists_vote_of_lookup hm
        exact ⟨v, Votes.mem_for_iff.mpr hv, hmove⟩
      · intro h
        obtain ⟨v, hv, rfl⟩ := h
        exact Votes.lookup_of_vote hnone (Votes.mem_for_iff.mp hv)
    · rw [Table.move?, table_row_of_size_le ht (Nat.le_of_not_lt hq)]
      constructor
      · intro hm
        cases hm
      · intro h
        obtain ⟨v, hv, -⟩ := h
        exact absurd (lt_of_mem_votesOn hv) hq
  · refine List.ext_getElem (by simp [tableOf, Automaton.size, hc.length_eq]) ?_
    intro q hq hq'
    have hlt : q < (Automaton.build g).successors.length := by simpa using hq'
    simp [tableOf, Automaton.gotos, successorsOf, hlt]

/-- No terminal is twice in a row. -/
theorem Exact.mem_row_iff (h : g.Exact t) : (k, m) ∈ t.row q ↔ t.move? q k = some m := by
  have hkeys : ((t.row q).map Prod.fst).Nodup :=
    List.pairwise_map.mpr ((h.ordered q).imp fun hlt => String.ne_of_lt hlt)
  exact ⟨Association.lookup_of_mem hkeys, Association.mem_of_lookup⟩

/-- In a table no cell was contested. -/
theorem not_contested_of_table (ht : g.table = .ok t) (q : Nat) (k : String) : ¬ g.Contested q k := by
  intro h
  obtain ⟨v, hv, w, hw, hne⟩ := h
  have hexact := exact_of_table ht
  have hmove := (hexact.move q k _).mpr ⟨v, hv, rfl⟩
  rw [(hexact.move q k _).mpr ⟨w, hw, rfl⟩] at hmove
  exact hne (Option.some.inj hmove).symm

/-! ## The conflicts -/

section Conflicts

variable {all : List Votes} (hall : (Automaton.build g).allVotes g.follow = .ok all)

include hall

/-- The votes of a state, with what they are. -/
theorem votes_of_state (hq : q < (Automaton.build g).size) :
    ∃ votes : Votes, all[q]? = some votes ∧ ∀ k, votes.for k = g.votesOn q k := by
  obtain ⟨votes, hget, hvotes⟩ := mapM_getElem? hall (List.getElem?_range hq)
  exact ⟨votes, hget, fun k => for_stateVotes hvotes⟩

theorem mem_conflicts_iff {c : Conflict} :
    c ∈ (all.mapIdx (Automaton.build g).conflictsOf).flatten ↔
      ∃ q k path, g.Contested q k ∧ (Automaton.build g).path? q = some path ∧
        c = .ofVotes q path k (g.votesOn q k) := by
  have hc := Automaton.build_canonical g
  have hlength : all.length = (Automaton.build g).size := by simpa using mapM_length hall
  constructor
  · intro h
    obtain ⟨l, hl, hcl⟩ := List.mem_flatten.mp h
    obtain ⟨q, hq, rfl⟩ := List.mem_mapIdx.mp hl
    have hlt : q < (Automaton.build g).size := hlength ▸ hq
    obtain ⟨votes, hget, hfor⟩ := votes_of_state hall hlt
    obtain rfl : all[q] = votes := Option.some.inj ((List.getElem?_eq_getElem hq).symm.trans hget)
    obtain ⟨path, -, hpath, -⟩ := hc.path?_spec hlt
    obtain ⟨k, hk, rfl⟩ := List.mem_map.mp hcl
    rw [Votes.mem_contested_iff, hfor] at hk
    exact ⟨q, k, path, hk, hpath, by simp [hpath, hfor]⟩
  · intro h
    obtain ⟨q, k, path, hcontested, hpath, rfl⟩ := h
    obtain ⟨votes, hget, hfor⟩ := votes_of_state hall hcontested.lt
    have hmem : (Automaton.build g).conflictsOf q votes ∈
        all.mapIdx (Automaton.build g).conflictsOf :=
      List.mem_of_getElem? (i := q) (by simp [List.getElem?_mapIdx, hget])
    refine List.mem_flatten.mpr ⟨_, hmem, List.mem_map.mpr ⟨k, ?_, by simp [hpath, hfor]⟩⟩
    rwa [Votes.mem_contested_iff, hfor]

theorem reports_of_votes : g.Reports (all.mapIdx (Automaton.build g).conflictsOf).flatten where
  cells := fun q k => by
    constructor
    · intro h
      obtain ⟨path, -, hpath, -⟩ := (Automaton.build_canonical g).path?_spec h.lt
      exact ⟨_, (mem_conflicts_iff hall).mpr ⟨q, k, path, h, hpath, rfl⟩, rfl, rfl⟩
    · intro h
      obtain ⟨c, hcmem, rfl, rfl⟩ := h
      obtain ⟨q, k, path, h, -, rfl⟩ := (mem_conflicts_iff hall).mp hcmem
      exact h
  ordered := by
    refine List.pairwise_flatten.mpr ⟨?_, ?_⟩
    · intro l hl
      obtain ⟨q, hq, rfl⟩ := List.mem_mapIdx.mp hl
      exact List.pairwise_map.mpr ((Votes.contested_pairwise _).imp fun hlt => Or.inr ⟨rfl, hlt⟩)
    · rw [List.pairwise_iff_getElem]
      intro i j hi hj hij c hcmem d hdmem
      simp only [List.getElem_mapIdx] at hcmem hdmem
      obtain ⟨k, -, rfl⟩ := List.mem_map.mp hcmem
      obtain ⟨l, -, rfl⟩ := List.mem_map.mp hdmem
      exact Or.inl hij
  actions := fun c hcmem => by
    obtain ⟨q, k, path, -, -, rfl⟩ := (mem_conflicts_iff hall).mp hcmem
    rfl
  kind := fun c hcmem => by
    obtain ⟨q, k, path, -, -, rfl⟩ := (mem_conflicts_iff hall).mp hcmem
    simp [Conflict.ofVotes, Move.isReduce_iff]
  path := fun c hcmem => by
    obtain ⟨q, k, path, h, hpath, rfl⟩ := (mem_conflicts_iff hall).mp hcmem
    obtain ⟨path', qs, hpath', way⟩ := (Automaton.build_canonical g).path?_spec h.lt
    obtain rfl : path = path' := Option.some.inj (hpath.symm.trans hpath')
    exact ⟨qs, path, way, rfl⟩

end Conflicts

theorem table_of_no_conflict {all : List Votes}
    (hall : (Automaton.build g).allVotes g.follow = .ok all)
    (hfound : (all.mapIdx (Automaton.build g).conflictsOf).flatten = []) :
    g.table = .ok ((Automaton.build g).tableOf (all.map Votes.settled)
      ((List.range (Automaton.build g).size).map (Automaton.build g).gotos)) := by
  simp only [table, Automaton.table, hall, hfound]

theorem table_of_conflict {all : List Votes} {c : Conflict} {rest : List Conflict}
    (hall : (Automaton.build g).allVotes g.follow = .ok all)
    (hfound : (all.mapIdx (Automaton.build g).conflictsOf).flatten = c :: rest) :
    g.table = .error (.conflicts (c :: rest)) := by
  simp only [table, Automaton.table, hall, hfound]

/-- There is a table, or there are conflicts that are reported as they are. -/
theorem table_ok_or_reports (g : Grammar) :
    (∃ t, g.table = .ok t) ∨
      ∃ c rest, g.table = .error (.conflicts (c :: rest)) ∧ g.Reports (c :: rest) := by
  obtain ⟨all, hall⟩ := g.exists_allVotes
  cases hfound : (all.mapIdx (Automaton.build g).conflictsOf).flatten with
  | nil => exact Or.inl ⟨_, table_of_no_conflict hall hfound⟩
  | cons c rest =>
    exact Or.inr ⟨c, rest, table_of_conflict hall hfound, hfound ▸ reports_of_votes hall⟩

/-- Without contested cells there is a table. -/
theorem exists_table (h : ∀ q k, ¬ g.Contested q k) : ∃ t, g.table = .ok t := by
  refine (table_ok_or_reports g).resolve_right ?_
  intro hconflicts
  obtain ⟨c, rest, -, hreports⟩ := hconflicts
  exact h _ _ ((hreports.cells _ _).mpr ⟨c, by simp, rfl, rfl⟩)

/-- Making the table of a grammar, all at once or by a builder that looks everything up,
has two outcomes. If no two votes of a state on a terminal differ, it is the table of
the votes; else it is the conflicts, one for each cell with different votes. -/
theorem table_exact (g : Grammar) :
    g.Supplied ∧
      ((∃ t, g.table = .ok t ∧ (Automaton.build g).fill g.follow = .ok t ∧
          (∀ q k, ¬ g.Contested q k) ∧ g.Exact t) ∨
        ∃ found, g.table = .error (.conflicts found) ∧
          (Automaton.build g).fill g.follow = .error (.builder (.conflicts found)) ∧
          (∃ q k, g.Contested q k) ∧ g.Reports found) := by
  refine ⟨g.supplied, ?_⟩
  obtain ⟨all, hall⟩ := g.exists_allVotes
  have hfill := (Automaton.build_canonical g).fill_eq hall
  have hreports := reports_of_votes hall
  cases hfound : (all.mapIdx (Automaton.build g).conflictsOf).flatten with
  | nil =>
    rw [hfound] at hfill
    have htable := table_of_no_conflict hall hfound
    exact Or.inl ⟨_, htable, hfill, not_contested_of_table htable, exact_of_table htable⟩
  | cons c rest =>
    rw [hfound] at hfill hreports
    exact Or.inr ⟨_, table_of_conflict hall hfound, hfill,
      ⟨c.state, c.terminal, (hreports.cells _ _).mpr ⟨c, by simp, rfl, rfl⟩⟩, hreports⟩

end Grammar

end Slr
