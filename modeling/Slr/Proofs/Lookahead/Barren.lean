import Slr.Proofs.Derivation.Shape
import Slr.Proofs.Lookahead.Adjacent

/-! # Where FOLLOW is empty

What stands behind a nonterminal is the rest of a right hand side behind it, or behind a
nonterminal that ends in it; FOLLOW has the terminals that such rests come to begin with.
On the way from the start symbol to a nonterminal each rest comes to begin with a terminal,
or vanishes, and then what stands behind the left hand side counts; behind the start symbol
stands the end of the input. There is a third case: behind vanishing symbols a rest has a
nonterminal that neither vanishes nor comes to begin with a terminal, as one does whose
productions all begin with itself. Such a barren nonterminal is in the way of whatever
stands behind it, and nothing else leaves FOLLOW of a nonterminal that derivations come to
empty. -/

namespace Slr

namespace Grammar

variable {g : Grammar} {n m l t : String} {p : Production} {xs ys : List Symbol}

/-- What is derived from a barren nonterminal is not empty and does not begin with a terminal. -/
def Barren (g : Grammar) (n : String) : Prop :=
  ¬ g.Derives [.nonterminal n] [] ∧ ∀ t ys, ¬ g.Derives [.nonterminal n] (.terminal t :: ys)

/-- Something that is derived from one nonterminal ends with the other. -/
def EndsIn (g : Grammar) (m n : String) : Prop :=
  ∃ us, g.Derives [.nonterminal m] (us ++ [.nonterminal n])

/-- Somewhere behind a nonterminal, and behind vanishing symbols only, stands a barren one. -/
def Stalls (g : Grammar) (n : String) : Prop :=
  ∃ p ∈ g.productions, g.Reached p.lhs ∧ ∃ xs m us k zs,
    p.rhs = xs ++ .nonterminal m :: (us ++ .nonterminal k :: zs) ∧
      g.EndsIn m n ∧ g.Derives us [] ∧ g.Barren k

/-! ## Ends of what is derived -/

theorem EndsIn.refl (g : Grammar) (n : String) : g.EndsIn n n := ⟨[], .refl⟩

theorem EndsIn.trans (h : g.EndsIn l m) (h' : g.EndsIn m n) : g.EndsIn l n := by
  obtain ⟨us, hus⟩ := h
  obtain ⟨vs, hvs⟩ := h'
  exact ⟨us ++ vs, hus.trans (by simpa using hvs.surround us [])⟩

/-- A left hand side ends in a nonterminal of its right hand side if what is behind vanishes. -/
theorem endsIn_of_vanishes (hp : p ∈ g.productions) (hrhs : p.rhs = xs ++ .nonterminal n :: ys)
    (hys : g.Derives ys []) : g.EndsIn p.lhs n :=
  ⟨xs, derives_behind hp hrhs hys⟩

theorem endsIn_of_path (path : Reachability.Path (g.enclosing g.nullable) n m) :
    g.EndsIn m n := by
  induction path with
  | refl => exact .refl g n
  | tail _ edge ih =>
    obtain ⟨ys, ho, hall⟩ := mem_enclosing_iff.mp edge
    obtain ⟨p, hp, rfl, xs, hrhs⟩ := mem_occurrences_iff.mp ho
    have hvanishes : (FirstSets.ofGrammar g).table.Vanishes ys := List.all_eq_true.mp hall
    exact (endsIn_of_vanishes hp hrhs (g.first_sound.derives_nil hvanishes)).trans ih

/-! ## What FOLLOW has -/

/-- FOLLOW has a terminal if some rest comes to begin with it, behind the nonterminal or
behind one that ends in it. -/
theorem mem_followOf_iff_rest (hn : n ∈ g.nonterminals) :
    t ∈ g.followOf (.ofGrammar g) n ↔ ∃ p ∈ g.productions, ∃ xs m ys,
      p.rhs = xs ++ .nonterminal m :: ys ∧ g.EndsIn m n ∧ ∃ zs, g.Derives ys (.terminal t :: zs) := by
  constructor
  · intro h
    obtain ⟨-, m, path, hdirect⟩ := (mem_followOf_iff hn).mp h
    obtain ⟨lhs, ys, ho, hopen⟩ := mem_directFollow_iff.mp hdirect
    obtain ⟨p, hp, -, xs, hrhs⟩ := mem_occurrences_iff.mp ho
    have hopens : (FirstSets.ofGrammar g).table.Opens t ys :=
      (opens_iff_openings fun _ => rfl).mpr hopen
    exact ⟨p, hp, xs, m, ys, hrhs, endsIn_of_path path, g.first_sound.derives_open hopens⟩
  · rintro ⟨p, hp, xs, m, ys, hrhs, ⟨us, hus⟩, zs, hzs⟩
    have hinside := hus.surround xs (.terminal t :: zs)
    have hrule := derives_behind hp hrhs hzs
    exact (mem_followOf_iff_adjacent hn).mpr ⟨p.lhs, mem_nonterminals.mpr ⟨p, hp, rfl⟩,
      xs ++ us, zs, hrule.trans (by simpa using hinside)⟩

theorem followOf_eq_nil_iff (hn : n ∈ g.nonterminals) :
    g.followOf (.ofGrammar g) n = [] ↔ ∀ p ∈ g.productions, ∀ xs m ys,
      p.rhs = xs ++ .nonterminal m :: ys → g.EndsIn m n →
        ∀ t zs, ¬ g.Derives ys (.terminal t :: zs) := by
  rw [List.eq_nil_iff_forall_not_mem]
  simp only [mem_followOf_iff_rest hn]
  constructor
  · intro h p hp xs m ys hrhs hends t zs hd
    exact h t ⟨p, hp, xs, m, ys, hrhs, hends, zs, hd⟩
  · rintro h t ⟨p, hp, xs, m, ys, hrhs, hends, zs, hd⟩
    exact h p hp xs m ys hrhs hends t zs hd

/-! ## The way from the start symbol -/

/-- A word vanishes, or comes to begin with a terminal, or has a barren nonterminal behind
vanishing symbols. -/
theorem vanishes_or_opens_or_barren (g : Grammar) (w : List Symbol) :
    g.Derives w [] ∨ (∃ t ys, g.Derives w (.terminal t :: ys)) ∨
      ∃ us k zs, w = us ++ .nonterminal k :: zs ∧ g.Derives us [] ∧ g.Barren k := by
  induction w with
  | nil => exact .inl .refl
  | cons x w ih =>
    cases x with
    | terminal t => exact .inr (.inl ⟨t, w, .refl⟩)
    | nonterminal k =>
      by_cases hk : g.Derives [.nonterminal k] []
      · rcases ih with hw | ⟨t, ys, hw⟩ | ⟨us, l, zs, rfl, hus, hl⟩
        · exact .inl (hk.append hw)
        · exact .inr (.inl ⟨t, ys, hk.append hw⟩)
        · exact .inr (.inr ⟨.nonterminal k :: us, l, zs, rfl, hk.append hus, hl⟩)
      · by_cases hopen : ∃ t ys, g.Derives [.nonterminal k] (.terminal t :: ys)
        · obtain ⟨t, ys, hys⟩ := hopen
          exact .inr (.inl ⟨t, ys ++ w, by simpa using hys.surround [] w⟩)
        · simp only [not_exists] at hopen
          exact .inr (.inr ⟨[], k, w, rfl, .refl, hk, hopen⟩)

/-- Whatever derivations come to has something in its FOLLOW, unless a barren nonterminal
stands behind it. -/
theorem Reached.exists_mem_followOf (h : g.Reached n) :
    (∃ t, t ∈ g.followOf (.ofGrammar g) n) ∨ g.Stalls n := by
  induction h with
  | start => exact .inl ⟨endName, g.end_mem_followOf_start⟩
  | @part p n h hp hmem ih =>
    have hn : n ∈ g.nonterminals := defined_of_mem_rhs hp hmem
    obtain ⟨xs, ys, hrhs⟩ := List.append_of_mem hmem
    rcases g.vanishes_or_opens_or_barren ys with hys | ⟨t, zs, hd⟩ | ⟨us, k, zs, rfl, hus, hk⟩
    · -- what stands behind the left hand side stands behind the nonterminal too
      have hends := endsIn_of_vanishes hp hrhs hys
      rcases ih with ⟨t, ht⟩ | ⟨q, hq, hlive, vs, m, us, k, zs, hrhs', hm, hbarren⟩
      · obtain ⟨q, hq, vs, m, ws, hrhs', hm, hd⟩ := (mem_followOf_iff_rest h.mem_nonterminals).mp ht
        exact .inl ⟨t, (mem_followOf_iff_rest hn).mpr
          ⟨q, hq, vs, m, ws, hrhs', hm.trans hends, hd⟩⟩
      · exact .inr ⟨q, hq, hlive, vs, m, us, k, zs, hrhs', hm.trans hends, hbarren⟩
    · exact .inl ⟨t, (mem_followOf_iff_rest hn).mpr ⟨p, hp, xs, n, ys, hrhs, .refl g n, zs, hd⟩⟩
    · exact .inr ⟨p, hp, h, xs, n, us, k, zs, hrhs, .refl g n, hus, hk⟩

/-- The barren nonterminal is one that derivations come to. -/
theorem Stalls.exists_barren (h : g.Stalls n) : ∃ k, g.Reached k ∧ g.Barren k := by
  obtain ⟨p, hp, hreached, xs, m, us, k, zs, hrhs, -, -, hk⟩ := h
  exact ⟨k, .part hreached hp (by simp [hrhs]), hk⟩

/-- The FOLLOW set that a table is made with, of a nonterminal that derivations come to: it
is empty exactly if no rest comes to begin with a terminal, behind the nonterminal or behind
one that ends in it, and then a barren nonterminal stands in such a rest. If derivations come
to no barren nonterminal, it is not empty. -/
theorem follow_empty_exact (hn : g.Reached n) (hgoal : n ≠ goalName) :
    ∃ ts, g.follow.lookup n = some ts ∧
      (ts = [] ↔ ∀ p ∈ g.productions, ∀ xs m ys, p.rhs = xs ++ .nonterminal m :: ys →
        g.EndsIn m n → ∀ t zs, ¬ g.Derives ys (.terminal t :: zs)) ∧
      (ts = [] → g.Stalls n) ∧
      ((∀ k, g.Reached k → ¬ g.Barren k) → ts ≠ []) := by
  have hmem := hn.mem_nonterminals
  have hstalls : g.followOf (.ofGrammar g) n = [] → g.Stalls n := by
    intro hempty
    refine hn.exists_mem_followOf.resolve_left ?_
    rintro ⟨t, ht⟩
    rw [hempty] at ht
    cases ht
  refine ⟨_, follow_lookup hmem hgoal, followOf_eq_nil_iff hmem, hstalls, ?_⟩
  intro hfertile hempty
  obtain ⟨k, hk, hbarren⟩ := (hstalls hempty).exists_barren
  exact hfertile k hk hbarren

theorem not_barren_of_mem_firsts (hn : n ∈ g.nonterminals)
    (ht : t ∈ (FirstSets.ofGrammar g).table.firsts (.nonterminal n)) : ¬ g.Barren n := by
  intro h
  obtain ⟨ys, hd⟩ := (g.first_table_exact.mem_firsts_iff (nonterminal_mem_alphabet.mpr hn)).mp ht
  exact h.2 t ys hd

/-- An item with more behind it, and the more grows at its right end. -/
def growingRight : Grammar where
  start := "all"
  productions :=
    [.goal "all", ⟨1, "all", [.nonterminal "item", .nonterminal "more"]⟩,
      ⟨2, "item", [.terminal "X"]⟩, ⟨3, "more", [.terminal "X", .nonterminal "more"]⟩]
  wellFormed :=
    ⟨rfl, by decide, by decide, by decide, by simp [Production.goal],
      by simp [Production.goal, endName, goalName]⟩

/-- No word of terminals is more, and still an `X` stands behind the item. -/
theorem follow_empty_exact_growingRight :
    growingRight.Reached "item" ∧ "item" ≠ goalName ∧
      (∀ k, growingRight.Reached k → ¬ growingRight.Barren k) ∧
      ∃ ts, growingRight.follow.lookup "item" = some ts ∧ ts ≠ [] := by
  have hrule : ⟨1, "all", [.nonterminal "item", .nonterminal "more"]⟩ ∈ growingRight.productions := by
    simp [growingRight]
  have hitem : growingRight.Reached "item" := .part .start hrule (by simp)
  have hfirsts : ∀ k ∈ growingRight.nonterminals,
      "X" ∈ (FirstSets.ofGrammar growingRight).table.firsts (.nonterminal k) := by
    have hall : growingRight.nonterminals = ["__goal", "all", "item", "more"] := by cbv
    have hsets : ∀ k ∈ ["__goal", "all", "item", "more"],
        (FirstSets.ofGrammar growingRight).table.firsts (.nonterminal k) = ["X"] := by
      simp only [List.forall_mem_cons, List.not_mem_nil, false_implies, implies_true, and_true]
      exact ⟨by cbv, by cbv, by cbv, by cbv⟩
    intro k hk
    rw [hsets k (hall ▸ hk)]
    exact List.mem_singleton_self _
  have hfertile : ∀ k, growingRight.Reached k → ¬ growingRight.Barren k := fun k hk =>
    not_barren_of_mem_firsts hk.mem_nonterminals (hfirsts k hk.mem_nonterminals)
  obtain ⟨ts, hlookup, -, -, hne⟩ := follow_empty_exact hitem (by decide)
  exact ⟨hitem, by decide, hfertile, ts, hlookup, hne hfertile⟩

/-- The same with the more growing at its left end. -/
def growingLeft : Grammar where
  start := "all"
  productions :=
    [.goal "all", ⟨1, "all", [.nonterminal "item", .nonterminal "more"]⟩,
      ⟨2, "item", [.terminal "X"]⟩, ⟨3, "more", [.nonterminal "more", .terminal "X"]⟩]
  wellFormed :=
    ⟨rfl, by decide, by decide, by decide, by simp [Production.goal],
      by simp [Production.goal, endName, goalName]⟩

/-- Derivations come to the item, and its FOLLOW is empty. -/
theorem growingLeft_follow_item :
    growingLeft.Reached "item" ∧ "item" ≠ goalName ∧
      growingLeft.follow.lookup "item" = some [] := by
  have hrule : ⟨1, "all", [.nonterminal "item", .nonterminal "more"]⟩ ∈ growingLeft.productions := by
    simp [growingLeft]
  exact ⟨.part .start hrule (by simp), by decide, by cbv⟩

end Grammar

end Slr
