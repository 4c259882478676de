import Mathlib.Data.List.Perm.Basic
import Mathlib.Data.List.Sort
import Slr.Proofs.Automaton.Shared
import Slr.Proofs.Lookahead.Shared
import Slr.Proofs.Table.Exactness

/-! # What live rules do for the table

Items that are alike vote alike where the same terminals may follow, since successors are
the same. So the votes of a state on a terminal are the same but for their order: the same
cells are contested, and the others get the same moves. Indices of productions are left
out where moves are compared; all else about a table is the same, and so are the reports
of conflicts but for the order of the votes in each. -/

namespace Slr

open Automaton

namespace Move

/-- A move without the index of the production that it reduces. -/
def unnumbered : Move → Move
  | shift state => shift state
  | reduce p => reduce { p with index := 0 }
  | accept => accept

@[simp] theorem isReduce_unnumbered (m : Move) : m.unnumbered.isReduce = m.isReduce := by
  cases m <;> rfl

@[simp] theorem advice_unnumbered (m : Move) : m.unnumbered.advice = m.advice := by
  cases m <;> rfl

theorem unnumbered_reduce_eq_iff {p p' : Production} :
    (reduce p).unnumbered = (reduce p').unnumbered ↔ p.rule = p'.rule := by
  simp [unnumbered, Production.rule]

end Move

def Row.unnumbered (row : Row) : Row := row.map fun e => (e.1, e.2.unnumbered)

/-- The same moves but for the indices of productions, the same gotos and the same depths. -/
structure Table.Agrees (t t' : Table) : Prop where
  actions : t.actions.map Row.unnumbered = t'.actions.map Row.unnumbered
  gotos : t.gotos = t'.gotos
  depths : t.depths = t'.depths

/-- The same conflict, with its votes in some order. -/
structure Conflict.Agrees (c c' : Conflict) : Prop where
  state : c.state = c'.state
  terminal : c.terminal = c'.terminal
  path : c.path = c'.path
  kind : c.kind = c'.kind
  actions : c.actions.Perm c'.actions

theorem Conflict.ofVotes_agrees {q : Nat} {path : List Symbol} {k : String}
    {votes votes' : List Vote}
    (hkind : (votes.map (·.move.isReduce)).Perm (votes'.map (·.move.isReduce)))
    (hactions : (votes.map fun v => (v.item.text, v.move.advice)).Perm
      (votes'.map fun v => (v.item.text, v.move.advice))) :
    Agrees (.ofVotes q path k votes) (.ofVotes q path k votes') where
  state := rfl
  terminal := rfl
  path := rfl
  kind := by
    have hall := hkind.all_eq (f := id)
    simp only [List.all_map, Function.id_comp] at hall
    simp only [ofVotes]
    exact congrArg (fun b => if b = true then _ else _) hall
  actions := hactions

/-- Tables that agree, or conflicts that agree one by one. -/
inductive SameOutcome : Except TableError Table → Except TableError Table → Prop
  | table {t t' : Table} (h : t.Agrees t') : SameOutcome (.ok t) (.ok t')
  | conflicts {found found' : List Conflict} (h : List.Forall₂ Conflict.Agrees found found') :
      SameOutcome (.error (.conflicts found)) (.error (.conflicts found'))

section

variable {α β κ : Type} {l l' : List α} {key : α → κ} {f f' : α → Option β}

theorem filterMap_eq_of_keys (hkeys : l.map key = l'.map key)
    (hf : ∀ x ∈ l, ∀ y ∈ l', key x = key y → f x = f' y) : l.filterMap f = l'.filterMap f' := by
  induction l generalizing l' with
  | nil =>
    obtain rfl : l' = [] := by simpa using hkeys.symm
    rfl
  | cons x l ih =>
    cases l' with
    | nil => cases hkeys
    | cons y l' =>
      obtain ⟨hkey, hkeys⟩ := List.cons.inj hkeys
      have hrest := ih hkeys fun x hx y hy => hf x (by simp [hx]) y (by simp [hy])
      rw [List.filterMap_cons, List.filterMap_cons, hf x (by simp) y (by simp) hkey, hrest]

/-- Lists with the same keys give the same, if it depends on keys only. -/
theorem perm_filterMap_of_keys (hperm : (l.map key).Perm (l'.map key))
    (hf : ∀ x ∈ l, ∀ y ∈ l', key x = key y → f x = f' y) :
    (l.filterMap f).Perm (l'.filterMap f') := by
  -- the first list in the order of the second
  have hcomp : (Relation.Comp (fun keys l => keys = List.map key l) List.Perm) (l'.map key) l := by
    rw [List.eq_map_comp_perm]
    exact hperm.symm
  obtain ⟨m, hkeys, hm⟩ := hcomp
  rw [← filterMap_eq_of_keys hkeys.symm fun x hx => hf x (hm.mem_iff.mp hx)]
  exact (hm.filterMap f).symm

end

/-! ## Votes -/

/-- Votes for the same move, by items that are alike. -/
def Vote.Alike (v w : Vote) : Prop :=
  v.move.unnumbered = w.move.unnumbered ∧ v.item.core = w.item.core

namespace Grammar

variable {g : Grammar} {q : Nat} {k : String} {v w : Vote} {t : Table}

/-- A reduction is voted for by an item at its end, on what may follow. -/
theorem item_of_reduce_vote {p : Production} (hv : v ∈ g.votesOn q k)
    (hmove : v.move = .reduce p) :
    ∃ it ∈ (build g).items q, it.production = p ∧ it.next = none ∧ g.Follows p.lhs k := by
  obtain ⟨it, hit, h⟩ := List.mem_filterMap.mp hv
  obtain ⟨m, hm, rfl⟩ := Option.map_eq_some_iff.mp h
  simp only at hmove
  subst hmove
  unfold vote? at hm
  split at hm
  · next hnext =>
    obtain ⟨hk, h⟩ := Option.ite_none_right_eq_some.mp hm
    obtain rfl := Move.reduce.inj (Option.some.inj h)
    exact ⟨it, hit, rfl, hnext, hk⟩
  · split at hm
    · cases hm
    · split at hm
      · obtain ⟨r, -, h⟩ := Option.map_eq_some_iff.mp hm
        cases h
      · split at hm <;> cases hm

theorem production_mem_of_vote {p : Production} (hv : v ∈ g.votesOn q k)
    (hmove : v.move = .reduce p) : p ∈ g.productions := by
  obtain ⟨it, hit, rfl, -⟩ := item_of_reduce_vote hv hmove
  exact (build_canonical g).production_mem hit

/-- An item at its end votes for its reduction on what may follow. -/
theorem reduce_vote {it : Item} (hit : it ∈ (build g).items q) (hnext : it.next = none)
    (hk : g.Follows it.production.lhs k) : ⟨.reduce it.production, it⟩ ∈ g.votesOn q k := by
  have hvote : g.vote? q k it = some (.reduce it.production) := by
    simp only [vote?, hnext]
    exact if_pos hk
  exact List.mem_filterMap.mpr ⟨it, hit, by rw [hvote]; rfl⟩

/-- An item before a terminal votes for a shift on it. -/
theorem exists_shift_vote {it : Item} (hit : it ∈ (build g).items q)
    (hnext : it.next = some (.terminal k)) (hk : k ≠ endName) :
    ∃ r, ⟨.shift r, it⟩ ∈ g.votesOn q k := by
  obtain ⟨r, edge⟩ := (build_canonical g).exists_edge hit hnext (by simpa using hk)
  exact ⟨r, List.mem_filterMap.mpr ⟨it, hit, by simp [vote?, hnext, hk, edge]⟩⟩

/-- In one grammar no two moves differ in the index of a production only. -/
theorem move_eq_iff_unnumbered (hv : v ∈ g.votesOn q k) (hw : w ∈ g.votesOn q k) :
    v.move = w.move ↔ v.move.unnumbered = w.move.unnumbered := by
  refine ⟨congrArg _, fun h => ?_⟩
  cases hvm : v.move with
  | reduce p =>
    cases hwm : w.move with
    | reduce p' =>
      rw [hvm, hwm, Move.unnumbered_reduce_eq_iff] at h
      rw [List.inj_on_of_nodup_map g.wellFormed.distinct (production_mem_of_vote hv hvm)
        (production_mem_of_vote hw hwm) h]
    | _ => simp [hvm, hwm, Move.unnumbered] at h
  | _ => cases hwm : w.move <;> simp_all [Move.unnumbered]

/-- Votes that differ are like votes that differ. -/
theorem ne_of_alike {v' w' : Vote} (hv : v ∈ g.votesOn q k) (hw : w ∈ g.votesOn q k)
    (hne : v.move ≠ w.move) (hvv : v.Alike v') (hww : w.Alike w') : v'.move ≠ w'.move := by
  intro heq
  refine hne ((move_eq_iff_unnumbered hv hw).mpr ?_)
  rw [hvv.1, hww.1, heq]

theorem contested_iff : g.Contested q k ↔
    ∃ m ∈ (g.votesOn q k).map (·.move.unnumbered),
      ∃ n ∈ (g.votesOn q k).map (·.move.unnumbered), m ≠ n := by
  simp only [List.mem_map]
  constructor
  · intro h
    obtain ⟨v, hv, w, hw, hne⟩ := h
    exact ⟨_, ⟨v, hv, rfl⟩, _, ⟨w, hw, rfl⟩, fun h => hne ((move_eq_iff_unnumbered hv hw).mpr h)⟩
  · intro h
    obtain ⟨_, ⟨v, hv, rfl⟩, _, ⟨w, hw, rfl⟩, hne⟩ := h
    exact ⟨v, hv, w, hw, fun h => hne ((move_eq_iff_unnumbered hv hw).mp h)⟩

theorem goal_iff_lhs {p : Production} (hp : p ∈ g.productions) :
    p = g.goal ↔ p.lhs = goalName :=
  ⟨fun h => h ▸ rfl, eq_goal_of_lhs hp⟩

/-- The entries of a row are the moves that are voted for. -/
theorem Exact.mem_unnumbered_iff (h : g.Exact t) {m : Move} :
    (k, m) ∈ (t.row q).unnumbered ↔ m ∈ (g.votesOn q k).map (·.move.unnumbered) := by
  have hmove (n : Move) : (k, n) ∈ t.row q ↔ ∃ v ∈ g.votesOn q k, v.move = n := by
    rw [h.mem_row_iff, h.move]
  simp only [Row.unnumbered, List.mem_map, Prod.mk.injEq]
  constructor
  · intro hmem
    obtain ⟨⟨_, n⟩, hn, rfl, rfl⟩ := hmem
    obtain ⟨v, hv, rfl⟩ := (hmove n).mp hn
    exact ⟨v, hv, rfl⟩
  · intro hmem
    obtain ⟨v, hv, rfl⟩ := hmem
    exact ⟨(k, v.move), (hmove _).mpr ⟨v, hv, rfl⟩, rfl, rfl⟩

end Grammar

namespace Grammar.Shares

variable {live : String → Prop} {g g' : Grammar} (h : g.Shares live g') {q : Nat} {k : String}
  {it it' : Item} {v : Vote} {t t' : Table} {all all' : List Votes}

include h

/-- Items that are alike vote for the same move, if the terminal may follow either or neither. -/
theorem vote?_eq (hit : it ∈ (build g).items q) (hit' : it' ∈ (build g').items q)
    (hcore : it.core = it'.core)
    (hk : it.next = none →
      (g.Follows it.production.lhs k ↔ g'.Follows it.production.lhs k)) :
    (g.vote? q k it).map Move.unnumbered = (g'.vote? q k it').map Move.unnumbered := by
  obtain ⟨hlhs, hrhs, -⟩ := Item.core_eq_iff.mp hcore
  have hmoves : (Move.reduce it.production).unnumbered = (Move.reduce it'.production).unnumbered :=
    Move.unnumbered_reduce_eq_iff.mpr (by rw [Production.rule, Production.rule, hlhs, hrhs])
  have hgoal : it.production = g.goal ↔ it'.production = g'.goal := by
    rw [goal_iff_lhs ((build_canonical g).production_mem hit),
      goal_iff_lhs ((build_canonical g').production_mem hit'), hlhs]
  unfold vote?
  rw [← Item.next_eq_of_core hcore, (build_alike h).successorsOf_eq]
  cases hnext : it.next with
  | none =>
    have hk' := hk hnext
    rw [hlhs] at hk' ⊢
    unfold Follows at hk'
    simp only [hk']
    split
    · exact congrArg some hmoves
    · rfl
  | some x => simp only [hgoal]

/-- A vote is cast in the other grammar too, if the terminal may follow there. -/
theorem exists_vote (hv : v ∈ g.votesOn q k)
    (hk : ∀ p, v.move = .reduce p → live p.lhs → g.Follows p.lhs k → g'.Follows p.lhs k) :
    ∃ w ∈ g'.votesOn q k, v.Alike w := by
  obtain ⟨it, hit, hvote⟩ := List.mem_filterMap.mp hv
  obtain ⟨m, hm, rfl⟩ := Option.map_eq_some_iff.mp hvote
  obtain ⟨hlive, it', hit', hcore⟩ :=
    ((build_alike h).items_alike (lt_of_mem_items hit)).covered it hit
  have hfollows : it.next = none →
      (g.Follows it.production.lhs k ↔ g'.Follows it.production.lhs k) := by
    intro hnext
    simp only [vote?, hnext, Option.ite_none_right_eq_some, Option.some.injEq] at hm
    exact ⟨hk _ hm.2.symm hlive, fun _ => hm.1⟩
  have hequal := h.vote?_eq hit hit' hcore.symm hfollows
  rw [hm, Option.map_some] at hequal
  obtain ⟨m', hm', hmove⟩ := Option.map_eq_some_iff.mp hequal.symm
  exact ⟨⟨m', it'⟩, List.mem_filterMap.mpr ⟨it', hit', by rw [hm']; rfl⟩, hmove.symm, hcore.symm⟩

/-- The votes of a state on a terminal are the same but for their order, for whatever does
not look at the indices of productions. -/
theorem votesOn_perm (hk : ∀ n, live n → (g.Follows n k ↔ g'.Follows n k)) {β : Type}
    {f : Vote → β} (hf : ∀ v w, Vote.Alike v w → f v = f w) :
    ((g.votesOn q k).map f).Perm ((g'.votesOn q k).map f) := by
  by_cases hq : q < (build g).size
  · have halike := (build_alike h).items_alike hq
    rw [votesOn, votesOn, List.map_filterMap, List.map_filterMap]
    refine perm_filterMap_of_keys halike.perm ?_
    intro it hit it' hit' hcore
    have hvote := h.vote?_eq hit hit' hcore fun _ => hk _ (halike.covered it hit).1
    cases hm : g.vote? q k it with
    | none =>
      cases hm' : g'.vote? q k it' with
      | none => rfl
      | some m' => simp [hm, hm'] at hvote
    | some m =>
      cases hm' : g'.vote? q k it' with
      | none => simp [hm, hm'] at hvote
      | some m' => simpa using hf _ _ ⟨by simpa [hm, hm'] using hvote, hcore⟩
  · have hnone {g : Grammar} (hq : ¬ q < (build g).size) : g.votesOn q k = [] :=
      List.eq_nil_iff_forall_not_mem.mpr fun v hv => hq (lt_of_mem_votesOn hv)
    rw [hnone hq, hnone ((build_alike h).size_eq ▸ hq)]

theorem gotos_eq (ht : g.table = .ok t) (ht' : g'.table = .ok t') : t.gotos = t'.gotos := by
  rw [(exact_of_table ht).gotos, (exact_of_table ht').gotos, (build_alike h).successors_eq]

theorem depths_eq (ht : g.table = .ok t) (ht' : g'.table = .ok t') : t.depths = t'.depths := by
  obtain ⟨all, -, -, rfl⟩ := table_ok ht
  obtain ⟨all', -, -, rfl⟩ := table_ok ht'
  exact (build_alike h).depths_eq

/-! ## The same terminals behind live nonterminals -/

section

variable (hfollow : ∀ n, live n → ∀ k, g.Follows n k ↔ g'.Follows n k)

include hfollow

theorem moves_perm (q : Nat) (k : String) : ((g.votesOn q k).map (·.move.unnumbered)).Perm
    ((g'.votesOn q k).map (·.move.unnumbered)) :=
  h.votesOn_perm (fun n hn => hfollow n hn k) fun _ _ hvw => hvw.1

theorem contested_iff (q : Nat) (k : String) : g.Contested q k ↔ g'.Contested q k := by
  rw [Grammar.contested_iff, Grammar.contested_iff]
  simp only [(h.moves_perm hfollow q k).mem_iff]

theorem row_eq (hexact : g.Exact t) (hexact' : g'.Exact t') (q : Nat) :
    (t.row q).unnumbered = (t'.row q).unnumbered := by
  have hasymm : Std.Asymm fun e e' : String × Move => e.1 < e'.1 :=
    ⟨fun _ _ hlt => String.lt_asymm hlt⟩
  have hordered {g : Grammar} {t : Table} (hexact : g.Exact t) :
      (t.row q).unnumbered.Pairwise fun e e' => e.1 < e'.1 :=
    List.pairwise_map.mpr (hexact.ordered q)
  refine (hordered hexact).eq_of_mem_iff (hordered hexact') fun e => ?_
  rw [hexact.mem_unnumbered_iff, hexact'.mem_unnumbered_iff]
  exact (h.moves_perm hfollow q e.1).mem_iff

theorem table_agrees (ht : g.table = .ok t) (ht' : g'.table = .ok t') : t.Agrees t' where
  actions := by
    have hexact := exact_of_table ht
    have hexact' := exact_of_table ht'
    have hsize : t.actions.length = t'.actions.length := by
      rw [hexact.size, hexact'.size, (build_alike h).size_eq]
    refine List.ext_getElem (by simpa using hsize) fun q hq hq' => ?_
    have hrow := h.row_eq hfollow hexact hexact' q
    simp only [List.length_map] at hq hq'
    simpa [Table.row, hq, hq'] using hrow
  gotos := h.gotos_eq ht ht'
  depths := h.depths_eq ht ht'

theorem conflict_agrees (q : Nat) (path : List Symbol) (k : String) : Conflict.Agrees
    (.ofVotes q path k (g.votesOn q k)) (.ofVotes q path k (g'.votesOn q k)) := by
  apply Conflict.ofVotes_agrees
  · refine h.votesOn_perm (fun n hn => hfollow n hn k) fun v w hvw => ?_
    rw [← Move.isReduce_unnumbered, hvw.1, Move.isReduce_unnumbered]
  · refine h.votesOn_perm (fun n hn => hfollow n hn k) fun v w hvw => ?_
    rw [Item.text_eq_of_core hvw.2, ← Move.advice_unnumbered, hvw.1, Move.advice_unnumbered]

/-- The conflicts of the two grammars agree one by one. -/
theorem conflicts_agree (hall : (build g).allVotes g.follow = .ok all)
    (hall' : (build g').allVotes g'.follow = .ok all') :
    List.Forall₂ Conflict.Agrees (all.mapIdx (build g).conflictsOf).flatten
      (all'.mapIdx (build g').conflictsOf).flatten := by
  have hlength : all.length = (build g).size := by simpa using mapM_length hall
  have hlength' : all'.length = (build g').size := by simpa using mapM_length hall'
  refine List.rel_flatten (List.forall₂_iff_get.mpr ⟨?_, ?_⟩)
  · rw [List.length_mapIdx, List.length_mapIdx, hlength, hlength', (build_alike h).size_eq]
  intro q hq hq'
  rw [List.length_mapIdx] at hq hq'
  obtain ⟨votes, hget, hfor⟩ := votes_of_state hall (hlength ▸ hq)
  obtain ⟨votes', hget', hfor'⟩ := votes_of_state hall' (hlength' ▸ hq')
  obtain rfl : all[q] = votes := Option.some.inj ((List.getElem?_eq_getElem hq).symm.trans hget)
  obtain rfl : all'[q] = votes' := Option.some.inj ((List.getElem?_eq_getElem hq').symm.trans hget')
  have hcontested : all[q].contested = all'[q].contested :=
    (Votes.contested_pairwise _).eq_of_mem_iff (Votes.contested_pairwise _) fun k => by
      rw [Votes.mem_contested_iff, Votes.mem_contested_iff, hfor, hfor']
      exact h.contested_iff hfollow q k
  simp only [List.get_eq_getElem, List.getElem_mapIdx, conflictsOf, hcontested, hfor, hfor',
    (build_alike h).path?_eq]
  rw [List.forall₂_map_left_iff, List.forall₂_map_right_iff, List.forall₂_same]
  exact fun k _ => h.conflict_agrees hfollow q _ k

theorem sameOutcome : SameOutcome g.table g'.table := by
  obtain ⟨all, hall⟩ := g.exists_allVotes
  obtain ⟨all', hall'⟩ := g'.exists_allVotes
  have hagree := h.conflicts_agree hfollow hall hall'
  generalize hfound : (all.mapIdx (build g).conflictsOf).flatten = found at hagree
  generalize hfound' : (all'.mapIdx (build g').conflictsOf).flatten = found' at hagree
  cases hagree with
  | nil =>
    have ht := table_of_no_conflict hall hfound
    have ht' := table_of_no_conflict hall' hfound'
    rw [ht, ht']
    exact .table (h.table_agrees hfollow ht ht')
  | cons hc hrest =>
    rw [table_of_conflict hall hfound, table_of_conflict hall' hfound']
    exact .conflicts (.cons hc hrest)

end

end Grammar.Shares

end Slr
