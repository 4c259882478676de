import Slr.Lookahead.Sweeps
import Slr.Proofs.Derivation.Words
import Slr.Proofs.Lookahead.First

/-! # FIRST against derivations of words

A table for FIRST is sound if derivations show whatever it says, and closed if no
production shows more. Going back over the steps of a derivation, a closed table
says of the first word what it says of the last; so a table that is both says
exactly what derivations show. FIRST of a grammar is such a table. -/

namespace Slr

namespace FirstTable

variable {g : Grammar} {T : FirstTable} {t : String} {v w xs ys : List Symbol} {x : Symbol}

/-- A word opens with a terminal if one of its symbols begins with it, and the symbols
before that one vanish. -/
def Opens (T : FirstTable) (t : String) : List Symbol → Prop
  | [] => False
  | x :: xs => t ∈ T.firsts x ∨ T.empty x = true ∧ T.Opens t xs

/-- All symbols of a word vanish. -/
def Vanishes (T : FirstTable) (w : List Symbol) : Prop := ∀ x ∈ w, T.empty x = true

/-- Whatever a table says is shown by a derivation. -/
structure Sound (T : FirstTable) (g : Grammar) : Prop where
  vanish : ∀ x, T.empty x = true → g.Derives [x] []
  begin : ∀ x, ∀ t ∈ T.firsts x, ∃ ys, g.Derives [x] (.terminal t :: ys)

/-- No terminal and no production shows what a table does not say. -/
structure Closed (T : FirstTable) (g : Grammar) : Prop where
  itself : ∀ t ∈ g.terminals, t ∈ T.firsts (.terminal t)
  vanish : ∀ p ∈ g.productions, T.Vanishes p.rhs → T.empty (.nonterminal p.lhs) = true
  begin : ∀ p ∈ g.productions, ∀ t, T.Opens t p.rhs → t ∈ T.firsts (.nonterminal p.lhs)

/-- Of the words of a grammar a table says what derivations show. -/
structure Exact (T : FirstTable) (g : Grammar) : Prop where
  vanish : ∀ w, (∀ x ∈ w, x ∈ g.alphabet) → (T.Vanishes w ↔ g.Derives w [])
  begin : ∀ w, (∀ x ∈ w, x ∈ g.alphabet) → ∀ t,
    (T.Opens t w ↔ ∃ ys, g.Derives w (.terminal t :: ys))

@[simp] theorem vanishes_append : T.Vanishes (xs ++ ys) ↔ T.Vanishes xs ∧ T.Vanishes ys := by
  simp [Vanishes, or_imp, forall_and]

@[simp] theorem vanishes_cons : T.Vanishes (x :: xs) ↔ T.empty x = true ∧ T.Vanishes xs := by
  simp [Vanishes]

theorem opens_append : T.Opens t (xs ++ ys) ↔ T.Opens t xs ∨ T.Vanishes xs ∧ T.Opens t ys := by
  induction xs with
  | nil => simp [Opens, Vanishes]
  | cons x xs ih =>
    simp only [List.cons_append, Opens, ih, vanishes_cons]
    tauto

/-! ## Sound and closed tables -/

theorem Sound.derives_nil (h : T.Sound g) (hw : T.Vanishes w) : g.Derives w [] :=
  Grammar.derives_nil fun x hx => h.vanish x (hw x hx)

theorem Sound.derives_open (h : T.Sound g) (hw : T.Opens t w) :
    ∃ ys, g.Derives w (.terminal t :: ys) := by
  induction w with
  | nil => exact hw.elim
  | cons x xs ih =>
    rcases hw with hx | ⟨hx, hxs⟩
    · obtain ⟨ys, hys⟩ := h.begin x t hx
      exact ⟨ys ++ xs, by simpa using hys.surround [] xs⟩
    · obtain ⟨ys, hys⟩ := ih hxs
      exact ⟨ys, (h.vanish x hx).append hys⟩

namespace Closed

variable (h : T.Closed g)

include h

/-- A step backwards: what a table says behind a step, it says before. -/
theorem of_rewrites (step : g.Rewrites v w) :
    (T.Vanishes w → T.Vanishes v) ∧ ∀ t, T.Opens t w → T.Opens t v := by
  cases step with
  | @rule p hp xs ys =>
    have hvanish := h.vanish p hp
    have hbegin := h.begin p hp
    constructor
    · simp only [vanishes_append, vanishes_cons]
      tauto
    · intro t
      have hopen := hbegin t
      simp only [opens_append, vanishes_append, Opens]
      tauto

theorem of_derives (hd : g.Derives v w) :
    (T.Vanishes w → T.Vanishes v) ∧ ∀ t, T.Opens t w → T.Opens t v := by
  induction hd with
  | refl => exact ⟨id, fun _ => id⟩
  | tail _ step ih =>
    obtain ⟨hvanish, hopen⟩ := h.of_rewrites step
    exact ⟨fun hw => ih.1 (hvanish hw), fun t hw => ih.2 t (hopen t hw)⟩

theorem exact (hs : T.Sound g) : T.Exact g where
  vanish := fun w _ => ⟨hs.derives_nil, fun hd => (h.of_derives hd).1 (by simp [Vanishes])⟩
  begin := fun w hw t => by
    refine ⟨hs.derives_open, ?_⟩
    intro hex
    obtain ⟨ys, hd⟩ := hex
    have ht : .terminal t ∈ g.alphabet := hd.mem_alphabet hw _ (by simp)
    exact (h.of_derives hd).2 t (Or.inl (h.itself t (Grammar.terminal_mem_alphabet.mp ht)))

end Closed

namespace Exact

variable (h : T.Exact g) (hx : x ∈ g.alphabet)

include h hx

theorem empty_iff : T.empty x = true ↔ g.Derives [x] [] := by
  simpa [Vanishes] using h.vanish [x] (by simpa using hx)

theorem mem_firsts_iff : t ∈ T.firsts x ↔ ∃ ys, g.Derives [x] (.terminal t :: ys) := by
  simpa [Opens] using h.begin [x] (by simpa using hx) t

end Exact

/-- Two tables that say what derivations show are listed alike. -/
theorem Exact.listed_eq {T' : FirstTable} (h : T.Exact g) (h' : T'.Exact g) :
    T.listed g = T'.listed g := by
  have hempty : ∀ x ∈ g.alphabet, T.empty x = T'.empty x := fun x hx =>
    Bool.eq_iff_iff.mpr ((h.empty_iff hx).trans (h'.empty_iff hx).symm)
  have hfirsts : ∀ x ∈ g.alphabet, ∀ t, t ∈ T.firsts x ↔ t ∈ T'.firsts x := fun x hx t =>
    (h.mem_firsts_iff hx).trans (h'.mem_firsts_iff hx).symm
  unfold listed
  congr 1
  · exact List.filter_congr fun n hn => hempty _ (Grammar.nonterminal_mem_alphabet.mpr hn)
  · refine List.map_congr_left fun x hx => ?_
    simp only [hfirsts x hx]

end FirstTable

/-! ## FIRST of a grammar -/

/-- What FIRST sets say, as a table. -/
def FirstSets.table (f : FirstSets) : FirstTable where
  firsts x := (f.first? x).getD []
  empty := vanishes f.nullable

namespace Grammar

variable {g : Grammar} {n t : String} {nullable : List String} {x y : Symbol} {w : List Symbol}

theorem mem_table_firsts_iff (hx : x ∈ g.alphabet) : t ∈ (FirstSets.ofGrammar g).table.firsts x ↔
    t ∈ g.terminals ∧ Reachability.Path (g.corners g.nullable) x (.terminal t) := by
  simp only [FirstSets.table, first?_eq hx, Option.getD_some]
  exact mem_firstOf_iff hx

/-- A symbol that is not of the grammar has no FIRST set. -/
theorem mem_alphabet_of_first (ht : t ∈ (FirstSets.ofGrammar g).table.firsts x) :
    x ∈ g.alphabet := by
  by_contra hx
  have hnone : (FirstSets.ofGrammar g).first? x = none := by
    rw [FirstSets.first?, Option.eq_none_iff_forall_ne_some]
    intro ts hts
    obtain ⟨y, hy, heq⟩ := List.mem_map.mp (Association.mem_of_lookup hts)
    exact hx ((Prod.mk.inj heq).1 ▸ hy)
  simp [FirstSets.table, hnone] at ht

/-- Openings are the symbols that only vanishing ones stand before. -/
theorem mem_openings_iff : y ∈ openings nullable w ↔
    ∃ xs ys, w = xs ++ y :: ys ∧ ∀ x ∈ xs, vanishes nullable x = true := by
  induction w with
  | nil => simp [openings]
  | cons x w ih =>
    unfold openings
    constructor
    · intro h
      split at h
      · rename_i hx
        rcases List.mem_cons.mp h with rfl | h
        · exact ⟨[], w, rfl, by simp⟩
        · obtain ⟨xs, ys, rfl, hxs⟩ := ih.mp h
          exact ⟨x :: xs, ys, rfl, by simpa [hx] using hxs⟩
      · obtain rfl := List.mem_singleton.mp h
        exact ⟨[], w, rfl, by simp⟩
    · intro h
      obtain ⟨xs, ys, heq, hxs⟩ := h
      cases xs with
      | nil =>
        obtain ⟨rfl, rfl⟩ := List.cons.inj heq
        split <;> simp
      | cons z xs =>
        obtain ⟨rfl, rfl⟩ := List.cons.inj heq
        rw [if_pos (hxs x (by simp))]
        exact List.mem_cons_of_mem _ (ih.mpr ⟨xs, ys, rfl, fun y hy => hxs y (by simp [hy])⟩)

theorem opens_iff_openings {T : FirstTable} (hempty : ∀ x, T.empty x = vanishes nullable x) :
    T.Opens t w ↔ ∃ y ∈ openings nullable w, t ∈ T.firsts y := by
  induction w with
  | nil => simp [FirstTable.Opens, openings]
  | cons x w ih =>
    simp only [FirstTable.Opens, openings, ih, hempty x]
    by_cases hx : vanishes nullable x = true <;> simp [hx]

/-! Everything that the rounds for vanishing nonterminals find vanishes. -/

theorem derives_nil_of_nullable (hn : n ∈ g.nullable) : g.Derives [.nonterminal n] [] := by
  have hafter : n ∈ g.nullableAfter g.nonterminals.length := hn
  clear hn
  generalize g.nonterminals.length = rounds at hafter
  induction rounds generalizing n with
  | zero => cases hafter
  | succ rounds ih =>
    obtain ⟨-, hany⟩ := List.mem_filter.mp
      (show n ∈ g.nullableRound (g.nullableAfter rounds) from hafter)
    simp only [List.any_eq_true, List.all_eq_true] at hany
    obtain ⟨p, hfor, hall⟩ := hany
    obtain ⟨hp, rfl⟩ := mem_productionsFor.mp hfor
    refine (derives_rhs hp).trans (derives_nil fun x hx => ?_)
    have hvanishes := hall x hx
    cases x with
    | terminal t => cases hvanishes
    | nonterminal m => exact ih (by simpa [vanishes] using hvanishes)

theorem derives_nil_of_vanishes (hx : vanishes g.nullable x = true) : g.Derives [x] [] := by
  cases x with
  | terminal t => cases hx
  | nonterminal n => exact derives_nil_of_nullable (by simpa [vanishes] using hx)

theorem derives_of_corner (hy : y ∈ g.corners g.nullable x) : ∃ ys, g.Derives [x] (y :: ys) := by
  cases x with
  | terminal t => cases hy
  | nonterminal n =>
    obtain ⟨p, hfor, hopen⟩ := List.mem_flatMap.mp hy
    obtain ⟨hp, rfl⟩ := mem_productionsFor.mp hfor
    obtain ⟨xs, ys, hrhs, hxs⟩ := mem_openings_iff.mp hopen
    have hnil : g.Derives xs [] := derives_nil fun z hz => derives_nil_of_vanishes (hxs z hz)
    refine ⟨ys, (derives_rhs hp).trans ?_⟩
    rw [hrhs]
    exact hnil.append .refl

theorem derives_of_corners (path : Reachability.Path (g.corners g.nullable) x y) :
    ∃ ys, g.Derives [x] (y :: ys) := by
  induction path with
  | refl => exact ⟨[], .refl⟩
  | tail _ edge ih =>
    obtain ⟨ys, hys⟩ := ih
    obtain ⟨zs, hzs⟩ := derives_of_corner edge
    exact ⟨zs ++ ys, hys.trans (by simpa using hzs.surround [] ys)⟩

theorem first_sound (g : Grammar) : (FirstSets.ofGrammar g).table.Sound g where
  vanish := fun _ hx => derives_nil_of_vanishes hx
  begin := fun _ _ ht =>
    derives_of_corners ((mem_table_firsts_iff (mem_alphabet_of_first ht)).mp ht).2

theorem first_closed (g : Grammar) : (FirstSets.ofGrammar g).table.Closed g where
  itself := fun t ht =>
    (mem_table_firsts_iff (terminal_mem_alphabet.mpr ht)).mpr ⟨ht, .refl _⟩
  vanish := fun p hp hrhs => by
    have hmem : p.lhs ∈ g.nullable := mem_nullable_of_production hp hrhs
    exact decide_eq_true hmem
  begin := fun p hp t hopens => by
    have hlhs : .nonterminal p.lhs ∈ g.alphabet :=
      nonterminal_mem_alphabet.mpr (mem_nonterminals.mpr ⟨p, hp, rfl⟩)
    obtain ⟨y, hy, ht⟩ := (opens_iff_openings fun _ => rfl).mp hopens
    have hmem : y ∈ g.alphabet := mem_alphabet_of_mem_rhs hp (openings_subset hy)
    obtain ⟨hterminal, path⟩ := (mem_table_firsts_iff hmem).mp ht
    refine (mem_table_firsts_iff hlhs).mpr ⟨hterminal, path.head ?_⟩
    exact List.mem_flatMap.mpr ⟨p, mem_productionsFor.mpr ⟨hp, rfl⟩, hy⟩

theorem first_table_exact (g : Grammar) : (FirstSets.ofGrammar g).table.Exact g :=
  g.first_closed.exact g.first_sound

/-- FIRST sets are their own list. -/
theorem first_listed (g : Grammar) : (FirstSets.ofGrammar g).table.listed g = .ofGrammar g := by
  have hnullable : g.nonterminals.filter (fun n => decide (n ∈ g.nullable)) = g.nullable := by
    have hround : g.nonterminals.filter (fun n => decide (n ∈ g.nullableRound g.nullable)) =
        g.nullableRound g.nullable := by
      refine List.filter_congr fun n hn => ?_
      rw [nullableRound, Bool.eq_iff_iff, decide_eq_true_iff, List.mem_filter]
      exact and_iff_right hn
    rwa [nullable_closed] at hround
  have hfirsts : ∀ x ∈ g.alphabet,
      g.terminals.filter (fun t => decide (t ∈ (FirstSets.ofGrammar g).table.firsts x)) =
        g.firstOf g.nullable x := by
    intro x hx
    simp only [FirstSets.table, first?_eq hx, Option.getD_some]
    refine List.filter_congr fun t ht => ?_
    simp [firstOf, ht]
  have hmap : g.alphabet.map (fun x => (x, g.terminals.filter
        fun t => decide (t ∈ (FirstSets.ofGrammar g).table.firsts x))) =
      g.alphabet.map fun x => (x, g.firstOf g.nullable x) :=
    List.map_congr_left fun x hx => by rw [hfirsts x hx]
  exact congrArg₂ FirstSets.mk hnullable hmap

/-- What a word of the grammar opens with is computed, and whether it vanishes. -/
theorem ofWord_spec (hw : ∀ x ∈ w, x ∈ g.alphabet) :
    ∃ ts e, (FirstSets.ofGrammar g).ofWord (w.map fun x => .symbol (.symbol x)) = .ok (ts, e) ∧
      (∀ t, t ∈ ts ↔ (FirstSets.ofGrammar g).table.Opens t w) ∧
      (e = true ↔ (FirstSets.ofGrammar g).table.Vanishes w) := by
  induction w with
  | nil => exact ⟨[], true, rfl, by simp [FirstTable.Opens], by simp [FirstTable.Vanishes]⟩
  | cons x w ih =>
    obtain ⟨ts, e, hword, hopens, hvanishes⟩ := ih fun y hy => hw y (by simp [hy])
    have hfirst := first?_eq (hw x (by simp))
    have hx : (FirstSets.ofGrammar g).table.firsts x = g.firstOf g.nullable x := by
      simp [FirstSets.table, hfirst]
    simp only [List.map_cons, FirstSets.ofWord, Candidate.symbol?, LooseSymbol.symbol?, hfirst,
      FirstTable.Opens, FirstTable.vanishes_cons, hx]
    by_cases hempty : vanishes (FirstSets.ofGrammar g).nullable x = true
    · have hx : (FirstSets.ofGrammar g).table.empty x = true := hempty
      rw [if_pos hempty, hword]
      refine ⟨_, e, rfl, fun t => ?_, ?_⟩
      · simp [mem_sortNames, hopens, hx]
      · simp [hvanishes, hx]
    · have hx : ¬ (FirstSets.ofGrammar g).table.empty x = true := hempty
      rw [if_neg hempty]
      exact ⟨_, false, rfl, fun t => by simp [hx], by simp [hx]⟩

end Grammar

end Slr
