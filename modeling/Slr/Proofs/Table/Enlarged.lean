import Slr.Proofs.Automaton.Prefixes
import Slr.Proofs.Derivation.Shape
import Slr.Proofs.Table.Cover
import Slr.Proofs.Table.Shared

/-! # What rules out of reach do to the table

A grammar that has more rules, for nonterminals out of reach, has the same states and
the same edges between them. But lookahead is computed from all rules: a rule that no
derivation uses may put a terminal behind a nonterminal that derivations come to. The
table then has reductions on it on top, and where these meet other moves it has
conflicts that the smaller grammar has not. Unless this happens the tables are the same. -/

namespace Slr

open Automaton

variable {g g' : Grammar} {n k : String} {q : Nat} {t t' : Table}

/-- Only with its more rules can the grammar have a terminal behind a nonterminal in reach. -/
def Grammar.Gains (g g' : Grammar) (n k : String) : Prop :=
  g.Reached n ∧ g'.Follows n k ∧ ¬ g.Follows n k

/-- The table of the larger grammar has the same states with the same edges, all moves that
the smaller one has, and reductions on terminals that it gains. -/
structure Table.Grows (g g' : Grammar) (t t' : Table) : Prop where
  kept : ∀ q k m, (k, m) ∈ (t.row q).unnumbered → (k, m) ∈ (t'.row q).unnumbered
  gained : ∀ q k m, (k, m) ∈ (t'.row q).unnumbered →
    (k, m) ∈ (t.row q).unnumbered ∨ ∃ p, m = .reduce p ∧ g.Gains g' p.lhs k
  gotos : t.gotos = t'.gotos
  depths : t.depths = t'.depths

/-- What comes of a grammar and of a larger one: two tables; a table, and conflicts on
terminals that the larger grammar gains; or conflicts, which the larger grammar has in the
same cells, with others on terminals that it gains. -/
inductive EnlargedOutcome (g g' : Grammar) :
    Except TableError Table → Except TableError Table → Prop
  | tables {t t' : Table} (h : t.Grows g g' t') : EnlargedOutcome g g' (.ok t) (.ok t')
  | clash {t : Table} {found : List Conflict} (h : ∀ c ∈ found, ∃ n, g.Gains g' n c.terminal) :
      EnlargedOutcome g g' (.ok t) (.error (.conflicts found))
  | conflicts {found found' : List Conflict}
      (kept : ∀ c ∈ found, ∃ c' ∈ found', c'.state = c.state ∧ c'.terminal = c.terminal)
      (gained : ∀ c' ∈ found', (∃ c ∈ found, c.state = c'.state ∧ c.terminal = c'.terminal) ∨
        ∃ n, g.Gains g' n c'.terminal) :
      EnlargedOutcome g g' (.error (.conflicts found)) (.error (.conflicts found'))

namespace Grammar.Enlarges

variable (h : g.Enlarges g')

include h

/-- If no rule out of reach mentions a nonterminal in reach, nothing is gained. -/
theorem not_gains (hfence : g'.Fenced g.Live) : ¬ g.Gains g' n k := by
  intro hgains
  obtain ⟨hreached, hfollows, hnot⟩ := hgains
  exact hnot (h.shares.back.follows hfence (Or.inr hreached) hfollows)

theorem exists_vote {v : Vote} (hv : v ∈ g.votesOn q k) : ∃ w ∈ g'.votesOn q k, v.Alike w :=
  h.shares.exists_vote hv fun _ _ _ hk => h.carries.follows g.fenced_all trivial hk

/-- A vote of the larger grammar is one of the smaller, or a reduction on what is gained. -/
theorem exists_vote_or_gains {v : Vote} (hv : v ∈ g'.votesOn q k) :
    (∃ w ∈ g.votesOn q k, v.Alike w) ∨ ∃ p, v.move = .reduce p ∧ g.Gains g' p.lhs k := by
  by_cases hgains : ∃ p, v.move = .reduce p ∧ g.Gains g' p.lhs k
  · exact Or.inr hgains
  · refine Or.inl (h.shares.symm.exists_vote hv fun p hmove hlive hk => ?_)
    by_contra hnot
    refine hgains ⟨p, hmove, ?_, hk, hnot⟩
    rcases hlive with hgoal | hreached
    · exact absurd hgoal (follows_iff.mp hk).1
    · exact hreached

/-- What is contested stays so. -/
theorem contested (hcontested : g.Contested q k) : g'.Contested q k := by
  obtain ⟨v, hv, w, hw, hne⟩ := hcontested
  obtain ⟨v', hv', hvv⟩ := h.exists_vote hv
  obtain ⟨w', hw', hww⟩ := h.exists_vote hw
  exact ⟨v', hv', w', hw', ne_of_alike hv hw hne hvv hww⟩

theorem contested_or_gains (hcontested : g'.Contested q k) :
    g.Contested q k ∨ ∃ n, g.Gains g' n k := by
  obtain ⟨v, hv, w, hw, hne⟩ := hcontested
  rcases h.exists_vote_or_gains hv with ⟨v', hv', hvv⟩ | ⟨p, -, hgains⟩
  · rcases h.exists_vote_or_gains hw with ⟨w', hw', hww⟩ | ⟨p, -, hgains⟩
    · exact Or.inl ⟨v', hv', w', hw', ne_of_alike hv hw hne hvv hww⟩
    · exact Or.inr ⟨_, hgains⟩
  · exact Or.inr ⟨_, hgains⟩

theorem grows (ht : g.table = .ok t) (ht' : g'.table = .ok t') : t.Grows g g' t' where
  kept := by
    intro q k m hm
    rw [(exact_of_table ht).mem_unnumbered_iff] at hm
    rw [(exact_of_table ht').mem_unnumbered_iff]
    obtain ⟨v, hv, rfl⟩ := List.mem_map.mp hm
    obtain ⟨w, hw, halike⟩ := h.exists_vote hv
    exact List.mem_map.mpr ⟨w, hw, halike.1.symm⟩
  gained := by
    intro q k m hm
    rw [(exact_of_table ht').mem_unnumbered_iff] at hm
    rw [(exact_of_table ht).mem_unnumbered_iff]
    obtain ⟨v, hv, rfl⟩ := List.mem_map.mp hm
    rcases h.exists_vote_or_gains hv with ⟨w, hw, halike⟩ | ⟨p, hmove, hgains⟩
    · exact Or.inl (List.mem_map.mpr ⟨w, hw, halike.1.symm⟩)
    · exact Or.inr ⟨{ p with index := 0 }, by rw [hmove]; rfl, hgains⟩
  gotos := h.shares.gotos_eq ht ht'
  depths := h.shares.depths_eq ht ht'

theorem outcome : EnlargedOutcome g g' g.table g'.table := by
  rcases table_ok_or_reports g with ⟨t, ht⟩ | ⟨c, rest, hfound, hreports⟩
  · rcases table_ok_or_reports g' with ⟨t', ht'⟩ | ⟨c', rest', hfound', hreports'⟩
    · rw [ht, ht']
      exact .tables (h.grows ht ht')
    · rw [ht, hfound']
      refine .clash fun c hc => ?_
      exact (h.contested_or_gains ((hreports'.cells _ _).mpr ⟨c, hc, rfl, rfl⟩)).resolve_left
        (not_contested_of_table ht _ _)
  · rcases table_ok_or_reports g' with ⟨t', ht'⟩ | ⟨c', rest', hfound', hreports'⟩
    · have hcontested := (hreports.cells _ _).mpr ⟨c, List.mem_cons_self, rfl, rfl⟩
      exact absurd (h.contested hcontested) (not_contested_of_table ht' _ _)
    · rw [hfound, hfound']
      refine .conflicts (fun c hc => ?_) fun c hc => ?_
      · exact (hreports'.cells _ _).mp (h.contested ((hreports.cells _ _).mpr ⟨c, hc, rfl, rfl⟩))
      · rw [← hreports.cells]
        exact h.contested_or_gains ((hreports'.cells _ _).mpr ⟨c, hc, rfl, rfl⟩)

end Grammar.Enlarges

/-- Rules for nonterminals out of reach leave the states and the edges between them as they
are, and all moves; they may add only reductions, on terminals that they put behind a
nonterminal in reach, and conflicts come with such terminals only. Unless there are any, the
rules do no harm: the tables are the same, or the conflicts are. -/
theorem Grammar.outcome_of_enlarges (h : g.Enlarges g') :
    Automaton.Alike g.Live g g' (build g) (build g') ∧ EnlargedOutcome g g' g.table g'.table ∧
      ((∀ n k, ¬ g.Gains g' n k) → SameOutcome g.table g'.table) := by
  refine ⟨build_alike h.shares, h.outcome, ?_⟩
  intro hnone
  refine h.shares.sameOutcome fun n hlive k => ⟨h.carries.follows g.fenced_all trivial, ?_⟩
  intro hk
  by_contra hnot
  rcases hlive with hgoal | hreached
  · exact absurd hgoal (follows_iff.mp hk).1
  · exact hnone n k ⟨hreached, hk, hnot⟩

/-! ## One or two, with a comma between them -/

def upToTwo : Grammar where
  start := "S"
  productions :=
    [.goal "S", ⟨1, "S", [.terminal "x"]⟩, ⟨2, "S", [.terminal "x", .terminal ",", .terminal "x"]⟩]
  wellFormed :=
    ⟨rfl, by decide, by decide, by decide, by simp [Production.goal],
      by simp [Production.goal, endName, goalName]⟩

/-- With a rule that nothing leads to, and that leads to nothing in reach. -/
def upToTwoAside : Grammar where
  start := "S"
  productions := upToTwo.productions ++ [⟨3, "U", [.nonterminal "U", .terminal ","]⟩]
  wellFormed :=
    ⟨rfl, by decide, by decide, by decide, by simp [upToTwo, Production.goal],
      by simp [upToTwo, Production.goal, endName, goalName]⟩

/-- With a rule that nothing leads to, and that puts a comma behind the start symbol. -/
def upToTwoBehind : Grammar where
  start := "S"
  productions := upToTwo.productions ++ [⟨3, "U", [.nonterminal "S", .terminal ","]⟩]
  wellFormed :=
    ⟨rfl, by decide, by decide, by decide, by simp [upToTwo, Production.goal],
      by simp [upToTwo, Production.goal, endName, goalName]⟩

theorem upToTwo_table : ∃ t, upToTwo.table = .ok t := by
  have hcover : upToTwo.Cover [[(0, 0), (1, 0), (2, 0)], [(0, 1)], [(1, 1), (2, 1)], [(2, 2)],
      [(2, 3)]] := by decide
  exact hcover.exists_table

theorem upToTwo_not_reached : ¬ upToTwo.Reached "U" := by
  intro hreached
  simpa [Grammar.mem_nonterminals, upToTwo, Production.goal, goalName] using
    hreached.mem_nonterminals

theorem upToTwo_enlarges_aside : upToTwo.Enlarges upToTwoAside :=
  .of_append rfl rfl (by simpa using upToTwo_not_reached)

theorem upToTwo_enlarges_behind : upToTwo.Enlarges upToTwoBehind :=
  .of_append rfl rfl (by simpa using upToTwo_not_reached)

/-- The rule aside mentions only what is out of reach itself. -/
theorem upToTwoAside_fenced : upToTwoAside.Fenced upToTwo.Live := by
  intro p hp n hlive hn
  rcases List.mem_append.mp hp with hp | hp
  · simp only [upToTwo, List.mem_cons, List.not_mem_nil, or_false] at hp
    rcases hp with rfl | rfl | rfl
    · exact Or.inl rfl
    · exact Or.inr .start
    · exact Or.inr .start
  · obtain rfl := List.mem_singleton.mp hp
    obtain rfl : n = "U" := by simpa using hn
    exact hlive

/-- The rule aside leaves the table as it is. -/
theorem upToTwoAside_sameOutcome : SameOutcome upToTwo.table upToTwoAside.table :=
  (Grammar.outcome_of_enlarges upToTwo_enlarges_aside).2.2 fun _ _ =>
    upToTwo_enlarges_aside.not_gains upToTwoAside_fenced

/-- Behind an `x` the comma can be shifted; but by the rule out of reach it may also follow
what the `x` is reduced to. -/
theorem upToTwoBehind_contested : ∃ q, upToTwoBehind.Contested q "," := by
  have hc := build_canonical upToTwoBehind
  let single : Production := ⟨1, "S", [.terminal "x"]⟩
  let pair : Production := ⟨2, "S", [.terminal "x", .terminal ",", .terminal "x"]⟩
  let behind : Production := ⟨3, "U", [.nonterminal "S", .terminal ","]⟩
  have hsingle : single ∈ upToTwoBehind.productions := by decide
  have hpair : pair ∈ upToTwoBehind.productions := by decide
  have hbehind : behind ∈ upToTwoBehind.productions := by decide
  have hreduce : ValidItem upToTwoBehind [.terminal "x"] ⟨single, 1, by decide⟩ :=
    .advance (.predict .goal rfl hsingle) rfl (by decide) rfl
  have hshift : ValidItem upToTwoBehind [.terminal "x"] ⟨pair, 1, by decide⟩ :=
    .advance (.predict .goal rfl hpair) rfl (by decide) rfl
  obtain ⟨q, qs, way⟩ := hc.exists_way hreduce
  have hit := (hc.mem_items_iff way).mpr hreduce
  have hit' := (hc.mem_items_iff way).mpr hshift
  have hfollows : upToTwoBehind.Follows "S" "," := by
    have hrhs : behind.rhs =
        [] ++ .nonterminal "S" :: [ParseTree.leaf ⟨",", .none, 0, 0⟩].map ParseTree.root := rfl
    refine Grammar.follows_iff.mpr ⟨by decide, upToTwoBehind.start_mem_nonterminals, ?_⟩
    exact Grammar.followOf_of_first hbehind hrhs (by simp [ParseTree.Valid.leaf]) rfl
  obtain ⟨r, hvote⟩ := Grammar.exists_shift_vote hit' rfl (by decide)
  exact ⟨q, _, Grammar.reduce_vote hit rfl hfollows, _, hvote, by simp⟩

/-- The rule out of reach makes a conflict where there was a table. -/
theorem upToTwoBehind_conflicts :
    upToTwo.Enlarges upToTwoBehind ∧ (∃ t, upToTwo.table = .ok t) ∧
      ∃ found, upToTwoBehind.table = .error (.conflicts found) := by
  refine ⟨upToTwo_enlarges_behind, upToTwo_table, ?_⟩
  refine (Grammar.table_ok_or_conflicts upToTwoBehind).resolve_left ?_
  intro htable
  obtain ⟨t, ht⟩ := htable
  obtain ⟨q, hcontested⟩ := upToTwoBehind_contested
  exact Grammar.not_contested_of_table ht _ _ hcontested

end Slr
