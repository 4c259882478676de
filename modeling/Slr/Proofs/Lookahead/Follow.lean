import Slr.Lookahead.Follow
import Slr.Proofs.Lookahead.First

/-! # FOLLOW holds every terminal that a tree shows behind a nonterminal

The token behind a part of a tree is the first token of the trees to its right
under the same node, or, where these have none, the token behind that node. Both
are in FOLLOW of the part's root. -/

namespace Slr.Grammar

variable {g : Grammar} {n t : String} {f : FirstSets} {p : Production} {ts : List ParseTree}
  {w ys : List Symbol}

theorem mem_rests_iff : ys ∈ rests n w ↔ ∃ xs, w = xs ++ .nonterminal n :: ys := by
  induction w with
  | nil => simp [rests]
  | cons x w ih =>
    unfold rests
    constructor
    · intro h
      split at h
      · rename_i hx
        rcases List.mem_cons.mp h with rfl | h
        · exact ⟨[], by simp [hx]⟩
        · obtain ⟨xs, rfl⟩ := ih.mp h
          exact ⟨x :: xs, rfl⟩
      · obtain ⟨xs, rfl⟩ := ih.mp h
        exact ⟨x :: xs, rfl⟩
    · intro hex
      obtain ⟨xs, h⟩ := hex
      cases xs with
      | nil =>
        obtain ⟨rfl, rfl⟩ := List.cons.inj h
        simp
      | cons y xs =>
        obtain ⟨rfl, rfl⟩ := List.cons.inj h
        have hmem := ih.mpr ⟨xs, rfl⟩
        split
        · exact List.mem_cons_of_mem _ hmem
        · exact hmem

/-- An occurrence of a nonterminal is a place in a right hand side. -/
theorem mem_occurrences_iff {lhs : String} :
    (lhs, ys) ∈ g.occurrences n ↔
      ∃ p ∈ g.productions, p.lhs = lhs ∧ ∃ xs, p.rhs = xs ++ .nonterminal n :: ys := by
  simp only [occurrences, List.mem_flatMap, List.mem_map, Prod.mk.injEq]
  constructor
  · intro h
    obtain ⟨p, hp, zs, hzs, rfl, rfl⟩ := h
    exact ⟨p, hp, rfl, mem_rests_iff.mp hzs⟩
  · intro hex
    obtain ⟨p, hp, rfl, h⟩ := hex
    exact ⟨p, hp, ys, mem_rests_iff.mpr h, rfl, rfl⟩

theorem mem_enclosing_iff {nullable : List String} {m : String} :
    m ∈ g.enclosing nullable n ↔
      ∃ ys, (m, ys) ∈ g.occurrences n ∧ ys.all (vanishes nullable) = true := by
  simp only [enclosing, List.mem_filterMap, Option.ite_none_right_eq_some, Option.some.injEq]
  constructor
  · intro h
    obtain ⟨⟨lhs, ys⟩, ho, hall, rfl⟩ := h
    exact ⟨ys, ho, hall⟩
  · intro h
    obtain ⟨ys, ho, hall⟩ := h
    exact ⟨(m, ys), ho, hall, rfl⟩

theorem mem_directFollow_iff :
    t ∈ g.directFollow f n ↔
      ∃ lhs ys, (lhs, ys) ∈ g.occurrences n ∧
        ∃ x ∈ openings f.nullable ys, t ∈ (f.first? x).getD [] := by
  simp only [directFollow, List.mem_flatMap, Prod.exists]

theorem mem_followOf_iff (hn : n ∈ g.nonterminals) :
    t ∈ g.followOf f n ↔ t ∈ g.terminals ∧
      ∃ m, Reachability.Path (g.enclosing f.nullable) n m ∧ t ∈ g.directFollow f m := by
  have hedges : ∀ a ∈ g.nonterminals, ∀ b ∈ g.enclosing f.nullable a, b ∈ g.nonterminals := by
    intro a _ b hb
    obtain ⟨ys, ho, -⟩ := mem_enclosing_iff.mp hb
    obtain ⟨p, hp, hlhs, -⟩ := mem_occurrences_iff.mp ho
    exact mem_nonterminals.mpr ⟨p, hp, hlhs⟩
  have hseeds : ∀ a ∈ [n], a ∈ g.nonterminals := by simpa using hn
  simp [followOf, Reachability.mem_reach_iff hedges hseeds (Nat.le_refl _)]

/-- FOLLOW of every nonterminal but the goal, by name. -/
theorem follow_lookup (hn : n ∈ g.nonterminals) (hgoal : n ≠ goalName) :
    g.follow.lookup n = some (g.followOf (FirstSets.ofGrammar g) n) := by
  rw [follow, Association.lookup_filter (fun k => k != goalName) (by simpa using hgoal)]
  exact Association.lookup_map_self _ hn

/-! ## What stands behind a part of a tree -/

theorem followOf_of_first {us : List ParseTree} {xs : List Symbol} {token : Token}
    {rest : List Token} (hp : p ∈ g.productions)
    (hrhs : p.rhs = xs ++ .nonterminal n :: us.map ParseTree.root) (hus : ∀ c ∈ us, c.Valid g)
    (htok : ParseTree.tokensOf us = token :: rest) :
    token.kind ∈ g.followOf (FirstSets.ofGrammar g) n := by
  have hn : n ∈ g.nonterminals := defined_of_mem_rhs hp (by simp [hrhs])
  obtain ⟨c, hc, hopen, r, hr⟩ := exists_opening hus htok
  have hroot : c.root ∈ g.alphabet :=
    mem_alphabet_of_mem_rhs hp (hrhs ▸ List.mem_append_right _
      (List.mem_cons_of_mem _ (List.mem_map_of_mem hc)))
  have hpath := path_to_first (hus c hc) hr
  have hterm : token.kind ∈ g.terminals :=
    terminal_mem_alphabet.mp (mem_alphabet_of_path hroot hpath)
  refine (mem_followOf_iff hn).mpr ⟨hterm, n, .refl n, mem_directFollow_iff.mpr ?_⟩
  refine ⟨p.lhs, _, mem_occurrences_iff.mpr ⟨p, hp, rfl, xs, hrhs⟩, c.root, hopen, ?_⟩
  rw [first?_eq hroot]
  exact (mem_firstOf_iff hroot).mpr ⟨hterm, hpath⟩

theorem followOf_of_lhs {us : List ParseTree} {xs : List Symbol} (hp : p ∈ g.productions)
    (hrhs : p.rhs = xs ++ .nonterminal n :: us.map ParseTree.root) (hus : ∀ c ∈ us, c.Valid g)
    (hnil : ParseTree.tokensOf us = []) (ht : t ∈ g.followOf (FirstSets.ofGrammar g) p.lhs) :
    t ∈ g.followOf (FirstSets.ofGrammar g) n := by
  have hn : n ∈ g.nonterminals := defined_of_mem_rhs hp (by simp [hrhs])
  obtain ⟨hterm, m, hpath, hdirect⟩ :=
    (mem_followOf_iff (mem_nonterminals.mpr ⟨p, hp, rfl⟩)).mp ht
  have hall : (us.map ParseTree.root).all (vanishes g.nullable) = true := by
    simp only [List.all_map, List.all_eq_true]
    exact fun c hc => vanishes_root (hus c hc) (tokens_eq_nil_of_mem hnil hc)
  have hedge : p.lhs ∈ g.enclosing g.nullable n :=
    mem_enclosing_iff.mpr ⟨_, mem_occurrences_iff.mpr ⟨p, hp, rfl, xs, hrhs⟩, hall⟩
  exact (mem_followOf_iff hn).mpr ⟨hterm, m, hpath.head hedge, hdirect⟩

/-- The token behind a nonterminal's tree, with the trees to its right and what
stands behind their parent, is in FOLLOW of the nonterminal. -/
theorem mem_followOf_behind {us : List ParseTree} {xs : List Symbol} {rest : List Token}
    {e : Token} (hp : p ∈ g.productions)
    (hrhs : p.rhs = xs ++ .nonterminal n :: us.map ParseTree.root) (hus : ∀ c ∈ us, c.Valid g)
    (hrest : (rest.headD e).kind ∈ g.followOf (FirstSets.ofGrammar g) p.lhs) :
    ((ParseTree.tokensOf us ++ rest).headD e).kind ∈ g.followOf (FirstSets.ofGrammar g) n := by
  cases htok : ParseTree.tokensOf us with
  | nil => exact followOf_of_lhs hp hrhs hus htok hrest
  | cons token r => exact followOf_of_first hp hrhs hus htok

/-- The end of the input follows the start symbol. -/
theorem end_mem_followOf_start (g : Grammar) :
    endName ∈ g.followOf (FirstSets.ofGrammar g) g.start := by
  let e : Token := ⟨endName, .none, 0, 0⟩
  have hrhs : g.goal.rhs = [] ++ .nonterminal g.start :: [ParseTree.leaf e].map ParseTree.root := rfl
  have htok : ParseTree.tokensOf [.leaf e] = e :: [] := rfl
  have hvalid : ∀ c ∈ [ParseTree.leaf e], c.Valid g := by
    intro c hc
    obtain rfl := List.mem_singleton.mp hc
    exact .leaf e
  exact followOf_of_first g.goal_mem hrhs hvalid htok

end Slr.Grammar
