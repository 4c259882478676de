import Mathlib.Algebra.Order.BigOperators.Group.List
import Mathlib.Algebra.Order.Ring.Nat
import Mathlib.Computability.Primrec.List
import Mathlib.Data.List.Permutation
import Slr.Proofs.Lookahead.Openings

/-! # Sweeps end, and FIRST is what they find

Each step of a sweep makes the tables heavier and raises the flag, or leaves
everything as it is (`Advance`); so does a whole sweep. As long as what is found
is true the weight is bounded, so some sweep leaves its table as it is. That
table is closed under the productions, since every step of the sweep found in it
what it would have added. -/

namespace Slr

/-! ## Adding to a set -/

section

variable {names more : List String} {t : String}

theorem mem_merge : t ∈ (merge names more).1 ↔ t ∈ names ∨ t ∈ more := by
  by_cases h : t ∈ names <;> simp [merge, h]

theorem merge_nodup (h : names.Nodup) : (merge names more).1.Nodup := by
  refine List.nodup_append.mpr ⟨h, Reachability.eraseDups_nodup _, ?_⟩
  intro a ha b hb hab
  subst hab
  simp [ha] at hb

theorem length_le_merge (names more : List String) :
    names.length ≤ (merge names more).1.length := by
  simp [merge]

theorem length_lt_merge (h : (merge names more).2 = true) :
    names.length < (merge names more).1.length := by
  have hne : (merge names more).1.length ≠ names.length := by simpa [merge] using h
  have hle := length_le_merge names more
  omega

theorem merge_same (h : (merge names more).2 = false) : (merge names more).1 = names := by
  simp only [merge, List.length_append] at h ⊢
  have hnil : ((more.filter (· ∉ names)).eraseDups).length = 0 := by simpa using h
  rw [List.eq_nil_of_length_eq_zero hnil, List.append_nil]

end

/-! ## Sweeps that end -/

section

variable {α β κ : Type} {keys : List κ} {weight : α → κ → Nat}

/-- From one moment of a sweep to a later one nothing gets lighter; the flag says whether
something happened, and then some key got heavier. -/
structure Advance (keys : List κ) (weight : α → κ → Nat) (s s' : α × Bool) : Prop where
  le : ∀ k ∈ keys, weight s.1 k ≤ weight s'.1 k
  kept : s'.2 = false → s.2 = false ∧ s'.1 = s.1
  grown : s'.2 = true → s.2 = true ∨ ∃ k ∈ keys, weight s.1 k < weight s'.1 k

namespace Advance

variable {s s' s'' : α × Bool} {step : α × Bool → β → α × Bool} {l : List β}

theorem refl (s : α × Bool) : Advance keys weight s s :=
  ⟨fun _ _ => Nat.le_refl _, fun h => ⟨h, rfl⟩, Or.inl⟩

theorem trans (h : Advance keys weight s s') (h' : Advance keys weight s' s'') :
    Advance keys weight s s'' where
  le := fun k hk => Nat.le_trans (h.le k hk) (h'.le k hk)
  kept := fun hs => by
    obtain ⟨hs', heq'⟩ := h'.kept hs
    obtain ⟨hs, heq⟩ := h.kept hs'
    exact ⟨hs, heq'.trans heq⟩
  grown := fun hs => by
    rcases h'.grown hs with hs' | ⟨k, hk, hlt⟩
    · rcases h.grown hs' with hs | ⟨k, hk, hlt⟩
      · exact Or.inl hs
      · exact Or.inr ⟨k, hk, Nat.lt_of_lt_of_le hlt (h'.le k hk)⟩
    · exact Or.inr ⟨k, hk, Nat.lt_of_le_of_lt (h.le k hk) hlt⟩

/-- Where the flag is not raised nothing has happened. -/
theorem eq (h : Advance keys weight s s') (hs : s'.2 = false) : s' = s := by
  obtain ⟨hflag, heq⟩ := h.kept hs
  exact Prod.ext heq (hs.trans hflag.symm)

theorem foldl (h : ∀ b ∈ l, ∀ s, Advance keys weight s (step s b)) (s : α × Bool) :
    Advance keys weight s (l.foldl step s) := by
  induction l generalizing s with
  | nil => exact .refl s
  | cons b l ih =>
    exact (h b (by simp) s).trans (ih (fun c hc => h c (by simp [hc])) (step s b))

/-- Where a whole sweep adds nothing, no step of it does. -/
theorem steps_eq (h : ∀ b ∈ l, ∀ s, Advance keys weight s (step s b))
    (hs : (l.foldl step s).2 = false) : ∀ b ∈ l, step s b = s := by
  induction l generalizing s with
  | nil => simp
  | cons b l ih =>
    have hrest : ∀ c ∈ l, ∀ s, Advance keys weight s (step s c) := fun c hc => h c (by simp [hc])
    have hfirst : step s b = s :=
      (h b (by simp) s).eq ((Advance.foldl hrest (step s b)).kept hs).1
    intro c hc
    rcases List.mem_cons.mp hc with rfl | hc
    · exact hfirst
    · exact ih hrest (by rwa [List.foldl_cons, hfirst] at hs) c hc

end Advance

/-- If a sweep keeps to an invariant that bounds the weights, some sweep adds nothing. -/
theorem repeatSweeps_ends {sweep : α → α × Bool} {Inv : α → Prop} {bound : Nat} (keys : List κ)
    (weight : α → κ → Nat)
    (hsweep : ∀ a, Inv a → Inv (sweep a).1 ∧ Advance keys weight (a, false) (sweep a))
    (hbound : ∀ a, Inv a → ∀ k ∈ keys, weight a k ≤ bound) {a : α} (ha : Inv a) :
    ∃ n b, repeatSweeps sweep n a = some b ∧ Inv b ∧ sweep b = (b, false) := by
  -- the induction is on what is left of the greatest weight of all keys together
  generalize hleft : keys.length * bound - (keys.map (weight a)).sum = left
  induction left using Nat.strongRecOn generalizing a with
  | _ left ih =>
    obtain ⟨hinv, hadvance⟩ := hsweep a ha
    cases hflag : (sweep a).2 with
    | false =>
      have hstop : sweep a = (a, false) := hadvance.eq hflag
      exact ⟨1, a, by simp [repeatSweeps, hstop], ha, hstop⟩
    | true =>
      have hlt : (keys.map (weight a)).sum < (keys.map (weight (sweep a).1)).sum := by
        obtain ⟨k, hk, hlt⟩ := (hadvance.grown hflag).resolve_left Bool.false_ne_true
        exact List.sum_lt_sum _ _ hadvance.le ⟨k, hk, hlt⟩
      have hle : (keys.map (weight (sweep a).1)).sum ≤ keys.length * bound := by
        have h := List.sum_le_card_nsmul (keys.map (weight (sweep a).1)) bound (by
          intro w hw
          obtain ⟨k, hk, rfl⟩ := List.mem_map.mp hw
          exact hbound _ hinv k hk)
        simpa using h
      obtain ⟨n, b, hn, hb, hstop⟩ := ih _ (by omega) hinv rfl
      have hpair : sweep a = ((sweep a).1, true) := Prod.ext rfl hflag
      exact ⟨n + 1, b, by rw [repeatSweeps, hpair]; exact hn, hb, hstop⟩

end

/-! ## Sweeps for FIRST -/

namespace FirstTable

variable {g : Grammar} {T : FirstTable} {n x : Symbol} {w : List Symbol} {s : FirstTable × Bool}

/-- What is known of a symbol. -/
def weight (T : FirstTable) (x : Symbol) : Nat := (T.firsts x).length + (T.empty x).toNat

/-- What every table on the way has found. -/
structure Found (T : FirstTable) (g : Grammar) : Prop extends T.Sound g where
  itself : ∀ t, t ∈ T.firsts (.terminal t)
  nodup : ∀ x, (T.firsts x).Nodup

theorem found_initial (g : Grammar) : initial.Found g where
  vanish := fun x hx => by cases hx
  begin := fun x t ht => by
    cases x with
    | terminal s =>
      obtain rfl := List.mem_singleton.mp ht
      exact ⟨[], .refl⟩
    | nonterminal n => cases ht
  itself := fun t => List.mem_singleton.mpr rfl
  nodup := fun x => by cases x <;> simp [initial]

theorem absorb_firsts (n x : Symbol) (s : FirstTable × Bool) (y : Symbol) :
    (absorb n x s).1.firsts y =
      if y = n then (merge (s.1.firsts n) (s.1.firsts x)).1 else s.1.firsts y := rfl

theorem Found.absorb (h : s.1.Found g)
    (hx : ∀ t ∈ s.1.firsts x, ∃ ys, g.Derives [n] (.terminal t :: ys)) :
    (absorb n x s).1.Found g where
  vanish := h.vanish
  begin := fun y t ht => by
    rw [absorb_firsts] at ht
    split at ht
    · rename_i hy
      rcases mem_merge.mp ht with ht | ht
      · exact hy ▸ h.begin n t ht
      · exact hy ▸ hx t ht
    · exact h.begin y t ht
  itself := fun t => by
    rw [absorb_firsts]
    split
    · rename_i hy
      exact mem_merge.mpr (Or.inl (hy ▸ h.itself t))
    · exact h.itself t
  nodup := fun y => by
    rw [absorb_firsts]
    split
    · exact merge_nodup (h.nodup n)
    · exact h.nodup y

theorem Found.markEmpty (h : s.1.Found g) (hn : g.Derives [n] []) : (markEmpty n s).1.Found g where
  vanish := fun y hy => by
    rcases Bool.or_eq_true_iff.mp hy with hy | hy
    · exact of_decide_eq_true hy ▸ hn
    · exact h.vanish y hy
  begin := h.begin
  itself := h.itself
  nodup := h.nodup

/-- What the rest of a right hand side shows is derived, as long as the symbols before it vanish. -/
theorem Found.along (h : s.1.Found g) (hw : g.Derives [n] w) : (along n w s).1.Found g := by
  induction w generalizing s with
  | nil => exact h.markEmpty hw
  | cons x w ih =>
    have hbegin : ∀ t ∈ s.1.firsts x, ∃ ys, g.Derives [n] (.terminal t :: ys) := by
      intro t ht
      obtain ⟨ys, hys⟩ := h.begin x t ht
      exact ⟨ys ++ w, hw.trans (by simpa using hys.surround [] w)⟩
    have habsorbed := h.absorb hbegin
    simp only [FirstTable.along]
    split
    · rename_i hx
      refine ih habsorbed (hw.trans ?_)
      exact (habsorbed.vanish x hx).append .refl
    · exact habsorbed

theorem absorb_advance (hn : n ∈ g.alphabet) : Advance g.alphabet weight s (absorb n x s) where
  le := fun y _ => by
    simp only [weight, absorb_firsts]
    split
    · rename_i hy
      exact Nat.add_le_add_right (hy ▸ length_le_merge _ _) _
    · exact Nat.le_refl _
  kept := fun h => by
    obtain ⟨hgrew, hflag⟩ := Bool.or_eq_false_iff.mp h
    refine ⟨hflag, ?_⟩
    have hfirsts : (absorb n x s).1.firsts = s.1.firsts := by
      funext y
      rw [absorb_firsts]
      split
      · rename_i hy
        rw [merge_same hgrew, hy]
      · rfl
    exact congrArg (FirstTable.mk · s.1.empty) hfirsts
  grown := fun h => by
    rcases Bool.or_eq_true_iff.mp h with hgrew | hflag
    · refine Or.inr ⟨n, hn, ?_⟩
      simp only [weight, absorb_firsts, if_pos]
      exact Nat.add_lt_add_right (length_lt_merge hgrew) _
    · exact Or.inl hflag

theorem markEmpty_advance (hn : n ∈ g.alphabet) :
    Advance g.alphabet weight s (markEmpty n s) where
  le := fun y _ => by
    simp only [weight, markEmpty]
    cases s.1.empty y <;> simp
  kept := fun h => by
    obtain ⟨hflag, hgrew⟩ := Bool.or_eq_false_iff.mp h
    have hempty : s.1.empty n = true := by simpa using hgrew
    refine ⟨hflag, congrArg (FirstTable.mk s.1.firsts) ?_⟩
    funext y
    by_cases hy : y = n <;> simp [hy, hempty]
  grown := fun h => by
    rcases Bool.or_eq_true_iff.mp h with hflag | hgrew
    · exact Or.inl hflag
    · have hempty : s.1.empty n = false := by simpa using hgrew
      exact Or.inr ⟨n, hn, by simp [weight, markEmpty, hempty]⟩

theorem along_advance (hn : n ∈ g.alphabet) : Advance g.alphabet weight s (along n w s) := by
  induction w generalizing s with
  | nil => exact markEmpty_advance hn
  | cons x w ih =>
    simp only [FirstTable.along]
    split
    · exact (absorb_advance hn).trans ih
    · exact absorb_advance hn

theorem mem_of_absorb {t : String} (h : absorb n x s = s) (ht : t ∈ s.1.firsts x) :
    t ∈ s.1.firsts n := by
  have hmerged : t ∈ (absorb n x s).1.firsts n := by
    rw [absorb_firsts, if_pos rfl]
    exact mem_merge.mpr (Or.inr ht)
  rwa [h] at hmerged

/-- A walk that adds nothing finds that the table says already what it would add. -/
theorem shown_of_along (hn : n ∈ g.alphabet) (h : along n w (T, false) = (T, false)) :
    (T.Vanishes w → T.empty n = true) ∧ ∀ t, T.Opens t w → t ∈ T.firsts n := by
  induction w with
  | nil =>
    have hempty : T.empty n = true := by
      simpa [FirstTable.along, markEmpty] using congrArg Prod.snd h
    exact ⟨fun _ => hempty, fun t ht => ht.elim⟩
  | cons x w ih =>
    simp only [FirstTable.along] at h
    have hfirst : absorb n x (T, false) = (T, false) := by
      split at h
      · exact (absorb_advance hn).eq ((along_advance hn).kept (congrArg Prod.snd h)).1
      · exact h
    rw [hfirst] at h
    have hmem {t : String} (ht : t ∈ T.firsts x) : t ∈ T.firsts n := mem_of_absorb hfirst ht
    by_cases hx : T.empty x = true
    · obtain ⟨hvanish, hopen⟩ := ih (by rwa [if_pos hx] at h)
      refine ⟨fun hw => hvanish (vanishes_cons.mp hw).2, ?_⟩
      intro t ht
      rcases ht with ht | ht
      · exact hmem ht
      · exact hopen t ht.2
    · refine ⟨fun hw => absurd (vanishes_cons.mp hw).1 hx, ?_⟩
      intro t ht
      rcases ht with ht | ht
      · exact hmem ht
      · exact absurd ht.1 hx

theorem lhs_mem_alphabet {p : Production} (hp : p ∈ g.productions) :
    .nonterminal p.lhs ∈ g.alphabet :=
  Grammar.nonterminal_mem_alphabet.mpr (Grammar.mem_nonterminals.mpr ⟨p, hp, rfl⟩)

theorem Found.sweep (h : T.Found g) : (T.sweep g).1.Found g :=
  List.foldlRecOn (motive := fun s : FirstTable × Bool => s.1.Found g) g.productions _ h
    fun _ hs _ hp => hs.along (Grammar.derives_rhs hp)

theorem sweep_advance (T : FirstTable) : Advance g.alphabet weight (T, false) (T.sweep g) :=
  .foldl (fun _ hp _ => along_advance (lhs_mem_alphabet hp)) _

/-- A table to which a sweep adds nothing is closed. -/
theorem Found.closed (h : T.Found g) (hstop : T.sweep g = (T, false)) : T.Closed g := by
  have hshown : ∀ p ∈ g.productions, (T.Vanishes p.rhs → T.empty (.nonterminal p.lhs) = true) ∧
      ∀ t, T.Opens t p.rhs → t ∈ T.firsts (.nonterminal p.lhs) := by
    intro p hp
    have hstep : ∀ p ∈ g.productions, ∀ s : FirstTable × Bool,
        Advance g.alphabet weight s (FirstTable.along (.nonterminal p.lhs) p.rhs s) :=
      fun p hp _ => along_advance (lhs_mem_alphabet hp)
    exact shown_of_along (lhs_mem_alphabet hp)
      (Advance.steps_eq hstep (congrArg Prod.snd hstop) p hp)
  exact ⟨fun t _ => h.itself t, fun p hp => (hshown p hp).1, fun p hp => (hshown p hp).2⟩

theorem Found.subset_terminals (h : T.Found g) (hx : x ∈ g.alphabet) :
    T.firsts x ⊆ g.terminals := by
  intro t ht
  obtain ⟨ys, hd⟩ := h.begin x t ht
  exact Grammar.terminal_mem_alphabet.mp (hd.mem_alphabet (by simpa using hx) _ (by simp))

theorem Found.weight_le (h : T.Found g) (hx : x ∈ g.alphabet) :
    T.weight x ≤ g.terminals.length + 1 := by
  have hle := (List.subperm_of_subset (h.nodup x) (h.subset_terminals hx)).length_le
  have hempty := Bool.toNat_le (T.empty x)
  unfold weight
  omega

/-- The sweeps end, with the FIRST sets of the grammar. -/
theorem exists_sweeps (g : Grammar) : ∃ n T, repeatSweeps (sweep g) n initial = some T ∧
    T.listed g = .ofGrammar g ∧ ∀ x ∈ g.alphabet, T.firsts x ⊆ g.terminals := by
  obtain ⟨n, T, hn, hfound, hstop⟩ := repeatSweeps_ends g.alphabet weight
    (fun T hT => ⟨Found.sweep hT, sweep_advance T⟩) (fun _ hT _ hx => Found.weight_le hT hx)
    (found_initial g)
  have hexact := (hfound.closed hstop).exact hfound.toSound
  exact ⟨n, T, hn, (hexact.listed_eq g.first_table_exact).trans g.first_listed,
    fun _ hx => hfound.subset_terminals hx⟩

end FirstTable

/-- Sweeps for FIRST end, with the FIRST sets of the grammar. Of these, a symbol is said to
vanish when it derives the empty word, and to begin with the terminals that what it derives
begins with; and what a word of the grammar opens with is what the words that it derives
begin with. -/
theorem Grammar.first_exact (g : Grammar) :
    (∃ n T, repeatSweeps (FirstTable.sweep g) n .initial = some T ∧
      T.listed g = .ofGrammar g ∧ ∀ x ∈ g.alphabet, T.firsts x ⊆ g.terminals) ∧
    (∀ x ∈ g.alphabet,
      (vanishes (FirstSets.ofGrammar g).nullable x = true ↔ g.Derives [x] []) ∧
      ∃ ts, (FirstSets.ofGrammar g).first? x = some ts ∧
        ∀ t, t ∈ ts ↔ ∃ ys, g.Derives [x] (.terminal t :: ys)) ∧
    ∀ w, (∀ x ∈ w, x ∈ g.alphabet) →
      ∃ ts e, (FirstSets.ofGrammar g).ofWord (w.map fun x => .symbol (.symbol x)) = .ok (ts, e) ∧
        (∀ t, t ∈ ts ↔ ∃ ys, g.Derives w (.terminal t :: ys)) ∧ (e = true ↔ g.Derives w []) := by
  have hexact := g.first_table_exact
  refine ⟨FirstTable.exists_sweeps g, ?_, ?_⟩
  · intro x hx
    have hfirsts : ∀ t, t ∈ (FirstSets.ofGrammar g).table.firsts x ↔
        ∃ ys, g.Derives [x] (.terminal t :: ys) := fun t => hexact.mem_firsts_iff hx
    simp only [FirstSets.table, first?_eq hx, Option.getD_some] at hfirsts
    exact ⟨hexact.empty_iff hx, _, first?_eq hx, hfirsts⟩
  · intro w hw
    obtain ⟨ts, e, hword, hopens, hvanishes⟩ := ofWord_spec hw
    exact ⟨ts, e, hword, fun t => (hopens t).trans (hexact.begin w hw t),
      hvanishes.trans (hexact.vanish w hw)⟩

/-- A gap is two pads, each of which may be empty. -/
def gaps : Grammar where
  start := "gap"
  productions :=
    [.goal "gap", ⟨1, "gap", [.nonterminal "pad", .nonterminal "pad"]⟩, ⟨2, "pad", []⟩,
      ⟨3, "pad", [.terminal " "]⟩]
  wellFormed :=
    ⟨rfl, by decide, by decide, by decide, by simp [Production.goal],
      by simp [Production.goal, endName, goalName]⟩

/-- Pads in front of the end of the input may be empty, and the end may then come first. -/
theorem Grammar.first_exact_gaps :
    (∀ x ∈ [Symbol.nonterminal "pad", .terminal "$"], x ∈ gaps.alphabet) ∧
      .nonterminal "gap" ∈ gaps.alphabet ∧
      gaps.Derives [.nonterminal "gap"] [] ∧
      ∀ t, t ∈ [" ", "$"] ↔
        ∃ ys, gaps.Derives [.nonterminal "pad", .terminal "$"] (.terminal t :: ys) := by
  have hall : gaps.alphabet =
      [.terminal " ", .terminal "$", .nonterminal "__goal", .nonterminal "gap",
        .nonterminal "pad"] := by cbv
  have hword : ∀ x ∈ [Symbol.nonterminal "pad", .terminal "$"], x ∈ gaps.alphabet := by
    simp [hall]
  have hgap : .nonterminal "gap" ∈ gaps.alphabet := by simp [hall]
  obtain ⟨-, hsymbols, hwords⟩ := gaps.first_exact
  obtain ⟨ts, e, hfirst, hts, -⟩ := hwords _ hword
  have hvalue : (FirstSets.ofGrammar gaps).ofWord
      ([Symbol.nonterminal "pad", .terminal "$"].map fun x => .symbol (.symbol x)) =
        .ok ([" ", "$"], false) := by cbv
  obtain ⟨rfl, rfl⟩ : [" ", "$"] = ts ∧ false = e := by
    simpa using hvalue.symm.trans hfirst
  have hvanishes : vanishes (FirstSets.ofGrammar gaps).nullable (.nonterminal "gap") = true := by
    cbv
  exact ⟨hword, hgap, (hsymbols _ hgap).1.mp hvanishes, hts⟩

end Slr
