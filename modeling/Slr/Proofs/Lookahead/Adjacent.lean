import Slr.Proofs.Lookahead.Shared
import Slr.Proofs.Lookahead.Sweeps

/-! # FOLLOW is what stands behind a nonterminal in derivations

In a derivation a nonterminal and a terminal right behind it come together in one
production: there the terminal opens what lies behind a symbol, and the
nonterminal is what ends this symbol, up to vanishing symbols. A closed table
follows the nonterminal back to that symbol, step by step, so it has the terminal.
Sweeps end in a closed table. -/

namespace Slr

variable {g : Grammar} {T : FirstTable} {F : FollowTable} {n t : String} {p : Production}
  {v w xs ys : List Symbol} {x : Symbol}

/-- A terminal stands right behind a nonterminal in something that is derived. -/
def Grammar.Adjacent (g : Grammar) (n t : String) : Prop :=
  ∃ m ∈ g.nonterminals, ∃ xs ys,
    g.Derives [.nonterminal m] (xs ++ .nonterminal n :: .terminal t :: ys)

namespace Grammar.Adjacent

theorem mem_terminals (h : g.Adjacent n t) : t ∈ g.terminals := by
  obtain ⟨m, hm, xs, ys, hd⟩ := h
  have hstart : ∀ x ∈ [Symbol.nonterminal m], x ∈ g.alphabet := by
    simpa [nonterminal_mem_alphabet] using hm
  exact terminal_mem_alphabet.mp (hd.mem_alphabet hstart _ (by simp))

/-- What opens the rest of a right hand side stands behind the nonterminal before it. -/
theorem of_opens (hT : T.Sound g) (hp : p ∈ g.productions)
    (hrhs : p.rhs = xs ++ .nonterminal n :: ys) (ht : T.Opens t ys) : g.Adjacent n t := by
  obtain ⟨zs, hzs⟩ := hT.derives_open ht
  exact ⟨p.lhs, mem_nonterminals.mpr ⟨p, hp, rfl⟩, xs, zs, derives_behind hp hrhs hzs⟩

/-- Where the rest of a right hand side vanishes, what stands behind the left hand side
stands behind the nonterminal before the rest. -/
theorem of_vanishes (hT : T.Sound g) (hp : p ∈ g.productions)
    (hrhs : p.rhs = xs ++ .nonterminal n :: ys) (hys : T.Vanishes ys)
    (h : g.Adjacent p.lhs t) : g.Adjacent n t := by
  obtain ⟨m, hm, us, vs, hd⟩ := h
  have hrule := derives_behind hp hrhs (hT.derives_nil hys)
  have hinside := hrule.surround us (.terminal t :: vs)
  exact ⟨m, hm, us ++ xs, vs, hd.trans (by simpa using hinside)⟩

end Grammar.Adjacent

namespace FollowTable

/-! ## Sound and closed tables -/

def Sound (F : FollowTable) (g : Grammar) : Prop :=
  ∀ n ∈ g.nonterminals, ∀ t ∈ F n, g.Adjacent n t

/-- No place of a nonterminal in a right hand side shows what a table does not say. -/
structure Closed (F : FollowTable) (T : FirstTable) (g : Grammar) : Prop where
  opens : ∀ p ∈ g.productions, ∀ xs n ys, p.rhs = xs ++ .nonterminal n :: ys →
    ∀ t, T.Opens t ys → t ∈ F n
  vanishes : ∀ p ∈ g.productions, ∀ xs n ys, p.rhs = xs ++ .nonterminal n :: ys →
    T.Vanishes ys → F p.lhs ⊆ F n

/-- A table has a terminal behind a nonterminal, or has it there as soon as it has it behind
a symbol of a word that the terminal opens the rest of. -/
def Shows (F : FollowTable) (T : FirstTable) (n t : String) (w : List Symbol) : Prop :=
  t ∈ F n ∨ ∃ xs m ys, w = xs ++ .nonterminal m :: ys ∧ T.Opens t ys ∧ (t ∈ F m → t ∈ F n)

/-- A symbol of a word in three parts stands in one of them. -/
theorem append_eq_append_cons {as bs cs : List Symbol} (h : as ++ bs ++ cs = xs ++ x :: ys) :
    (∃ zs, as = xs ++ x :: zs ∧ ys = zs ++ bs ++ cs) ∨
      (∃ us zs, bs = us ++ x :: zs ∧ ys = zs ++ cs) ∨ ∃ us, cs = us ++ x :: ys := by
  rw [List.append_assoc, List.append_eq_append_iff] at h
  rcases h with ⟨us, rfl, hback⟩ | ⟨zs, rfl, hfront⟩
  · rw [List.append_eq_append_iff] at hback
    rcases hback with ⟨vs, rfl, hcs⟩ | ⟨zs, rfl, hbs⟩
    · exact Or.inr (Or.inr ⟨vs, hcs⟩)
    · cases zs with
      | nil => exact Or.inr (Or.inr ⟨[], hbs.symm⟩)
      | cons z zs =>
        obtain ⟨rfl, rfl⟩ := List.cons.inj hbs
        exact Or.inr (Or.inl ⟨us, zs, rfl, rfl⟩)
  · cases zs with
    | nil =>
      cases bs with
      | nil => exact Or.inr (Or.inr ⟨[], hfront.symm⟩)
      | cons b bs =>
        obtain ⟨rfl, rfl⟩ := List.cons.inj hfront
        exact Or.inr (Or.inl ⟨[], bs, rfl, rfl⟩)
    | cons z zs =>
      obtain ⟨rfl, rfl⟩ := List.cons.inj hfront
      exact Or.inl ⟨zs, rfl, by simp⟩

theorem Closed.of_rewrites (h : F.Closed T g) (hT : T.Closed g) (step : g.Rewrites v w)
    (hw : F.Shows T n t w) : F.Shows T n t v := by
  rcases hw with hw | ⟨us, m, ys, heq, hopen, hm⟩
  · exact Or.inl hw
  cases step with
  | @rule p hp as bs =>
    rcases append_eq_append_cons heq with ⟨zs, rfl, rfl⟩ | ⟨vs, zs, hrhs, rfl⟩ | ⟨vs, rfl⟩
    · -- the symbol stands before the production that was used
      have hback := (hT.of_rewrites (.rule hp zs bs)).2 t hopen
      exact Or.inr ⟨us, m, _, by simp, hback, hm⟩
    · -- it stands inside: the terminal opens the rest of the production, or what lies behind it
      rcases FirstTable.opens_append.mp hopen with hinside | ⟨hzs, hbehind⟩
      · exact Or.inl (hm (h.opens p hp vs m zs hrhs t hinside))
      · exact Or.inr ⟨as, p.lhs, bs, rfl, hbehind,
          fun hlhs => hm (h.vanishes p hp vs m zs hrhs hzs hlhs)⟩
    · exact Or.inr ⟨as ++ .nonterminal p.lhs :: vs, m, ys, by simp, hopen, hm⟩

theorem Closed.of_derives (h : F.Closed T g) (hT : T.Closed g) (hd : g.Derives v w)
    (hw : F.Shows T n t w) : F.Shows T n t v := by
  induction hd with
  | refl => exact hw
  | tail _ step ih => exact ih (h.of_rewrites hT step hw)

/-- A closed table has whatever stands behind a nonterminal. -/
theorem Closed.mem_of_adjacent (h : F.Closed T g) (hT : T.Closed g) (hadj : g.Adjacent n t) :
    t ∈ F n := by
  have hterminal := hadj.mem_terminals
  obtain ⟨m, hm, xs, ys, hd⟩ := hadj
  have hopen : T.Opens t (.terminal t :: ys) := Or.inl (hT.itself t hterminal)
  rcases h.of_derives hT hd (Or.inr ⟨xs, n, _, rfl, hopen, id⟩) with hshown | hshown
  · exact hshown
  · -- nothing stands behind a word of one symbol
    obtain ⟨us, m', vs, heq, hopens, -⟩ := hshown
    obtain rfl : vs = [] := by
      have hlength := congrArg List.length heq
      simp only [List.length_append, List.length_cons, List.length_nil] at hlength
      exact List.eq_nil_of_length_eq_zero (by omega)
    exact hopens.elim

theorem mem_iff_adjacent (h : F.Closed T g) (hT : T.Closed g) (hs : F.Sound g)
    (hn : n ∈ g.nonterminals) : t ∈ F n ↔ g.Adjacent n t :=
  ⟨hs n hn t, h.mem_of_adjacent hT⟩

/-! ## Walks from the end of a right hand side -/

section

variable {f : FirstSets} {lhs : String} {more : List String} {b : Behind}
  {s : FollowTable × Bool}

/-- The walk knows of what lies behind a symbol whether it vanishes, and what it opens with. -/
theorem behind_spec (f : FirstSets) (lhs : String) (w : List Symbol) (s : FollowTable × Bool) :
    ((along f lhs w s).1.vanishes = true ↔ f.table.Vanishes w) ∧
      ∀ t, t ∈ (along f lhs w s).1.begins ↔ f.table.Opens t w := by
  induction w with
  | nil => simp [along, FirstTable.Vanishes, FirstTable.Opens]
  | cons x w ih =>
    obtain ⟨hvanishes, hbegins⟩ := ih
    have hpass : (along f lhs (x :: w) s).1 = (along f lhs w s).1.pass f x := rfl
    have hx : f.table.empty x = Slr.vanishes f.nullable x := rfl
    rw [hpass, Behind.pass, FirstTable.vanishes_cons, hx]
    simp only [FirstTable.Opens, hx]
    split
    · rename_i hempty
      refine ⟨by simp [hempty, hvanishes], fun t => ?_⟩
      simp only [mem_merge, hbegins, hempty, true_and]
      exact or_comm
    · rename_i hempty
      simp [hempty, FirstSets.table]

/-- How much is known of a nonterminal. -/
def weight (F : FollowTable) (n : String) : Nat := (F n).length

/-- What every table on the way has found. -/
structure Found (F : FollowTable) (g : Grammar) : Prop where
  sound : ∀ n, ∀ t ∈ F n, g.Adjacent n t
  nodup : ∀ n, (F n).Nodup

theorem found_initial (g : Grammar) : (initial g).Found g where
  sound := fun n t ht => by
    unfold initial at ht
    split at ht
    · rename_i hn
      obtain rfl := List.mem_singleton.mp ht
      subst hn
      exact ⟨goalName, Grammar.mem_nonterminals.mpr ⟨g.goal, g.goal_mem, rfl⟩, [], [],
        Grammar.derives_rhs g.goal_mem⟩
    · cases ht
  nodup := fun n => by
    unfold initial
    split <;> simp

theorem add_eq (n : String) (more : List String) (s : FollowTable × Bool) (m : String) :
    (add n more s).1 m = if m = n then (merge (s.1 n) more).1 else s.1 m := rfl

theorem Found.add (h : s.1.Found g) (hmore : ∀ t ∈ more, g.Adjacent n t) :
    (add n more s).1.Found g where
  sound := fun m t ht => by
    rw [add_eq] at ht
    split at ht
    · rename_i hm
      rcases mem_merge.mp ht with ht | ht
      · exact hm ▸ h.sound n t ht
      · exact hm ▸ hmore t ht
    · exact h.sound m t ht
  nodup := fun m => by
    rw [add_eq]
    split
    · exact merge_nodup (h.nodup n)
    · exact h.nodup m

theorem add_advance (hn : n ∈ g.nonterminals) :
    Advance g.nonterminals weight s (add n more s) where
  le := fun m _ => by
    simp only [weight, add_eq]
    split
    · rename_i hm
      exact hm ▸ length_le_merge _ _
    · exact Nat.le_refl _
  kept := fun h => by
    obtain ⟨hgrew, hflag⟩ := Bool.or_eq_false_iff.mp h
    refine ⟨hflag, ?_⟩
    funext m
    rw [add_eq]
    split
    · rename_i hm
      rw [merge_same hgrew, hm]
    · rfl
  grown := fun h => by
    rcases Bool.or_eq_true_iff.mp h with hgrew | hflag
    · refine Or.inr ⟨n, hn, ?_⟩
      simp only [weight, add_eq, if_pos]
      exact length_lt_merge hgrew
    · exact Or.inl hflag

theorem subset_of_add (h : add n more s = s) : more ⊆ s.1 n := by
  intro t ht
  have hadded : t ∈ (add n more s).1 n := by
    rw [add_eq, if_pos rfl]
    exact mem_merge.mpr (Or.inr ht)
  rwa [h] at hadded

theorem Found.meet (h : s.1.Found g)
    (hlhs : b.vanishes = true → ∀ t, g.Adjacent lhs t → g.Adjacent n t)
    (hbegins : ∀ t ∈ b.begins, g.Adjacent n t) : (meet lhs n b s).1.Found g := by
  unfold FollowTable.meet
  split
  · rename_i hv
    exact (h.add fun t ht => hlhs hv t (h.sound lhs t ht)).add hbegins
  · exact h.add hbegins

theorem meet_advance (hn : n ∈ g.nonterminals) :
    Advance g.nonterminals weight s (meet lhs n b s) := by
  unfold meet
  split
  · exact (add_advance hn).trans (add_advance hn)
  · exact add_advance hn

theorem subset_of_meet (hn : n ∈ g.nonterminals) (h : meet lhs n b (F, false) = (F, false)) :
    (b.vanishes = true → F lhs ⊆ F n) ∧ b.begins ⊆ F n := by
  unfold meet at h
  split at h
  · have hfirst : add n (F lhs) (F, false) = (F, false) :=
      (add_advance hn).eq ((add_advance hn).kept (congrArg Prod.snd h)).1
    simp only [hfirst] at h
    exact ⟨fun _ => subset_of_add hfirst, subset_of_add h⟩
  · rename_i hv
    exact ⟨fun hv' => absurd hv' hv, subset_of_add h⟩

theorem Found.along (h : s.1.Found g) (hf : f.table.Sound g) (hp : p ∈ g.productions)
    (hrhs : p.rhs = xs ++ w) : (along f p.lhs w s).2.1.Found g := by
  induction w generalizing xs with
  | nil => exact h
  | cons x w ih =>
    have hnext : p.rhs = (xs ++ [x]) ++ w := by simpa using hrhs
    have hrest := ih hnext
    obtain ⟨hvanishes, hbegins⟩ := behind_spec f p.lhs w s
    cases x with
    | terminal k => exact hrest
    | nonterminal n =>
      exact hrest.meet (fun hv t ht => .of_vanishes hf hp hrhs (hvanishes.mp hv) ht)
        fun t ht => .of_opens hf hp hrhs ((hbegins t).mp ht)

theorem along_advance (hp : p ∈ g.productions) (hrhs : p.rhs = xs ++ w) :
    Advance g.nonterminals weight s (along f lhs w s).2 := by
  induction w generalizing xs with
  | nil => exact .refl s
  | cons x w ih =>
    have hnext : p.rhs = (xs ++ [x]) ++ w := by simpa using hrhs
    have hrest := ih hnext
    cases x with
    | terminal k => exact hrest
    | nonterminal n =>
      exact hrest.trans (meet_advance (Grammar.defined_of_mem_rhs hp (by simp [hrhs])))

/-- A walk that adds nothing finds that the table says already what it would add. -/
theorem shown_of_along (hp : p ∈ g.productions) (hrhs : p.rhs = xs ++ w)
    (h : (along f p.lhs w (F, false)).2 = (F, false)) :
    ∀ us n ys, w = us ++ .nonterminal n :: ys →
      (∀ t, f.table.Opens t ys → t ∈ F n) ∧ (f.table.Vanishes ys → F p.lhs ⊆ F n) := by
  induction w generalizing xs with
  | nil => simp
  | cons x w ih =>
    have hnext : p.rhs = (xs ++ [x]) ++ w := by simpa using hrhs
    have hrest : Advance g.nonterminals weight (F, false) (along f p.lhs w (F, false)).2 :=
      along_advance hp hnext
    have hsteps : (along f p.lhs (x :: w) (F, false)).2 =
        (step f p.lhs x (along f p.lhs w (F, false)).1 (along f p.lhs w (F, false)).2).2 := rfl
    rw [hsteps] at h
    intro us n ys heq
    cases us with
    | cons u us =>
      obtain ⟨rfl, rfl⟩ := List.cons.inj heq
      refine ih hnext (hrest.eq ?_) us n ys rfl
      cases x with
      | terminal k => exact congrArg Prod.snd h
      | nonterminal m =>
        have hm : m ∈ g.nonterminals := Grammar.defined_of_mem_rhs hp (by simp [hrhs])
        exact ((meet_advance hm).kept (congrArg Prod.snd h)).1
    | nil =>
      obtain ⟨rfl, rfl⟩ := List.cons.inj heq
      have hn : n ∈ g.nonterminals := Grammar.defined_of_mem_rhs hp (by simp [hrhs])
      have hbehind := hrest.eq ((meet_advance hn).kept (congrArg Prod.snd h)).1
      simp only [step, hbehind] at h
      obtain ⟨hlhs, hbegins⟩ := subset_of_meet hn h
      obtain ⟨hvanishes, hopens⟩ := behind_spec f p.lhs w (F, false)
      exact ⟨fun t ht => hbegins ((hopens t).mpr ht), fun hw => hlhs (hvanishes.mpr hw)⟩

end

/-! ## Sweeps for FOLLOW -/

theorem Found.sweep (h : F.Found g) : (F.sweep g (.ofGrammar g)).1.Found g :=
  List.foldlRecOn (motive := fun s : FollowTable × Bool => s.1.Found g) g.productions _ h
    fun _ hs _ hp => hs.along g.first_sound hp (List.nil_append _).symm

theorem sweep_advance (f : FirstSets) (F : FollowTable) :
    Advance g.nonterminals weight (F, false) (F.sweep g f) :=
  .foldl (fun _ hp _ => along_advance hp (List.nil_append _).symm) _

/-- A table to which a sweep adds nothing is closed. -/
theorem closed_of_sweep {f : FirstSets} (hstop : F.sweep g f = (F, false)) :
    F.Closed f.table g := by
  have hshown : ∀ p ∈ g.productions, ∀ xs n ys, p.rhs = xs ++ .nonterminal n :: ys →
      (∀ t, f.table.Opens t ys → t ∈ F n) ∧ (f.table.Vanishes ys → F p.lhs ⊆ F n) := by
    intro p hp
    have hstep : ∀ p ∈ g.productions, ∀ s : FollowTable × Bool,
        Advance g.nonterminals weight s (along f p.lhs p.rhs s).2 :=
      fun p hp _ => along_advance hp (List.nil_append _).symm
    exact shown_of_along hp (List.nil_append _).symm
      (Advance.steps_eq hstep (congrArg Prod.snd hstop) p hp)
  exact ⟨fun p hp xs n ys hrhs => (hshown p hp xs n ys hrhs).1,
    fun p hp xs n ys hrhs => (hshown p hp xs n ys hrhs).2⟩

theorem Found.subset_terminals (h : F.Found g) (n : String) : F n ⊆ g.terminals :=
  fun t ht => (h.sound n t ht).mem_terminals

theorem Found.weight_le (h : F.Found g) (n : String) : F.weight n ≤ g.terminals.length :=
  (List.subperm_of_subset (h.nodup n) (h.subset_terminals n)).length_le

end FollowTable

/-! ## FOLLOW of a grammar -/

namespace Grammar

theorem follow_sound (g : Grammar) : FollowTable.Sound (g.followOf (.ofGrammar g)) g := by
  intro n hn t ht
  obtain ⟨-, m, path, hdirect⟩ := (mem_followOf_iff hn).mp ht
  have hadj : g.Adjacent m t := by
    obtain ⟨lhs, ys, ho, hopen⟩ := mem_directFollow_iff.mp hdirect
    obtain ⟨p, hp, -, xs, hrhs⟩ := mem_occurrences_iff.mp ho
    exact .of_opens g.first_sound hp hrhs ((opens_iff_openings fun _ => rfl).mpr hopen)
  clear hdirect ht
  induction path with
  | refl => exact hadj
  | tail _ edge ih =>
    obtain ⟨ys, ho, hall⟩ := mem_enclosing_iff.mp edge
    obtain ⟨p, hp, rfl, xs, hrhs⟩ := mem_occurrences_iff.mp ho
    exact ih (.of_vanishes g.first_sound hp hrhs (List.all_eq_true.mp hall) hadj)

theorem follow_closed (g : Grammar) :
    FollowTable.Closed (g.followOf (.ofGrammar g)) (FirstSets.ofGrammar g).table g where
  opens := fun p hp xs n ys hrhs t ht => by
    have hn : n ∈ g.nonterminals := defined_of_mem_rhs hp (by simp [hrhs])
    have hdirect : t ∈ g.directFollow (.ofGrammar g) n :=
      mem_directFollow_iff.mpr ⟨p.lhs, ys, mem_occurrences_iff.mpr ⟨p, hp, rfl, xs, hrhs⟩,
        (opens_iff_openings fun _ => rfl).mp ht⟩
    exact (mem_followOf_iff hn).mpr
      ⟨mem_terminals_of_directFollow hdirect, n, .refl n, hdirect⟩
  vanishes := fun p hp xs n ys hrhs hys t ht => by
    have hn : n ∈ g.nonterminals := defined_of_mem_rhs hp (by simp [hrhs])
    obtain ⟨hterminal, m, path, hdirect⟩ :=
      (mem_followOf_iff (mem_nonterminals.mpr ⟨p, hp, rfl⟩)).mp ht
    have hedge : p.lhs ∈ g.enclosing g.nullable n :=
      mem_enclosing_iff.mpr ⟨ys, mem_occurrences_iff.mpr ⟨p, hp, rfl, xs, hrhs⟩,
        List.all_eq_true.mpr hys⟩
    exact (mem_followOf_iff hn).mpr ⟨hterminal, m, path.head hedge, hdirect⟩

theorem mem_followOf_iff_adjacent {g : Grammar} {n t : String} (hn : n ∈ g.nonterminals) :
    t ∈ g.followOf (.ofGrammar g) n ↔ g.Adjacent n t :=
  FollowTable.mem_iff_adjacent g.follow_closed g.first_closed g.follow_sound hn

/-- The sweeps end, with the FOLLOW sets of the grammar. -/
theorem exists_follow_sweeps (g : Grammar) :
    ∃ k F, repeatSweeps (FollowTable.sweep g (.ofGrammar g)) k (.initial g) = some F ∧
      F.listed g = g.allFollow ∧ ∀ n, F n ⊆ g.terminals := by
  obtain ⟨k, F, hk, hfound, hstop⟩ := repeatSweeps_ends g.nonterminals FollowTable.weight
    (fun F hF => ⟨FollowTable.Found.sweep hF, FollowTable.sweep_advance _ F⟩)
    (fun _ hF n _ => FollowTable.Found.weight_le hF n) (FollowTable.found_initial g)
  refine ⟨k, F, hk, List.map_congr_left fun n hn => ?_, hfound.subset_terminals⟩
  have hmem : ∀ t, t ∈ F n ↔ t ∈ g.followOf (.ofGrammar g) n := fun t =>
    (FollowTable.mem_iff_adjacent (FollowTable.closed_of_sweep hstop) g.first_closed
      (fun n _ => hfound.sound n) hn).trans (mem_followOf_iff_adjacent hn).symm
  have hfilter : g.terminals.filter (fun t => decide (t ∈ F n)) = g.followOf (.ofGrammar g) n := by
    simp only [hmem]
    refine List.filter_congr fun t ht => ?_
    simp [followOf, ht]
  rw [hfilter]

theorem allFollow_lookup {g : Grammar} {n : String} (hn : n ∈ g.nonterminals) :
    g.allFollow.lookup n = some (g.followOf (.ofGrammar g) n) :=
  Association.lookup_map_self _ hn

/-- A nonterminal that derivations come to stands in something that the goal derives. -/
theorem Live.exists_derives {g : Grammar} {n : String} (h : g.Live n) :
    ∃ xs ys, g.Derives [.nonterminal goalName] (xs ++ .nonterminal n :: ys) := by
  rcases h with rfl | h
  · exact ⟨[], [], .refl⟩
  · induction h with
    | start => exact ⟨[], [.terminal endName], derives_rhs g.goal_mem⟩
    | @part p n _ hp hn ih =>
      obtain ⟨xs, ys, hd⟩ := ih
      obtain ⟨us, vs, hrhs⟩ := List.append_of_mem hn
      refine ⟨xs ++ us, vs ++ ys, hd.trans ?_⟩
      have hrule := derives_rhs hp
      rw [hrhs] at hrule
      have hinside := hrule.surround xs ys
      simpa using hinside

/-- Sweeps for FOLLOW end, with the FOLLOW sets of the grammar. These hold for each
nonterminal the terminals that stand right behind it in what nonterminals derive; if no
nonterminal is out of reach, in what the goal derives. The sets that a table is made with
are the same, the goal's apart. -/
theorem follow_exact (g : Grammar) :
    (∃ k F, repeatSweeps (FollowTable.sweep g (.ofGrammar g)) k (.initial g) = some F ∧
      F.listed g = g.allFollow ∧ ∀ n, F n ⊆ g.terminals) ∧
    (∀ n ∈ g.nonterminals, ∃ ts, g.allFollow.lookup n = some ts ∧
      (∀ t, t ∈ ts ↔ ∃ m ∈ g.nonterminals, ∃ xs ys,
        g.Derives [.nonterminal m] (xs ++ .nonterminal n :: .terminal t :: ys)) ∧
      ((∀ m ∈ g.nonterminals, g.Live m) → ∀ t, t ∈ ts ↔ ∃ xs ys,
        g.Derives [.nonterminal goalName] (xs ++ .nonterminal n :: .terminal t :: ys))) ∧
    (∀ n ∈ g.nonterminals, n ≠ goalName → g.follow.lookup n = g.allFollow.lookup n) ∧
    g.follow.lookup goalName = none := by
  refine ⟨g.exists_follow_sweeps, ?_, ?_, ?_⟩
  · intro n hn
    have hmem : ∀ t, t ∈ g.followOf (.ofGrammar g) n ↔ g.Adjacent n t :=
      fun t => mem_followOf_iff_adjacent hn
    refine ⟨_, allFollow_lookup hn, hmem, ?_⟩
    intro hlive t
    rw [hmem]
    constructor
    · intro h
      obtain ⟨m, hm, xs, ys, hd⟩ := h
      obtain ⟨us, vs, hgoal⟩ := (hlive m hm).exists_derives
      exact ⟨us ++ xs, ys ++ vs, hgoal.trans (by simpa using hd.surround us vs)⟩
    · intro h
      obtain ⟨xs, ys, hd⟩ := h
      exact ⟨goalName, mem_nonterminals.mpr ⟨g.goal, g.goal_mem, rfl⟩, xs, ys, hd⟩
  · intro n hn hgoal
    rw [follow_lookup hn hgoal, allFollow_lookup hn]
  · rw [List.lookup_eq_none_iff]
    intro e he
    rw [bne_comm]
    exact (List.mem_filter.mp he).2

/-- A space stands behind a pad where the pad behind it is a space, and the end of the input
where that pad is empty. -/
theorem follow_exact_gaps :
    "pad" ∈ gaps.nonterminals ∧ (∀ m ∈ gaps.nonterminals, gaps.Live m) ∧
      ∀ t, t ∈ [" ", "$"] ↔ ∃ xs ys,
        gaps.Derives [.nonterminal goalName] (xs ++ .nonterminal "pad" :: .terminal t :: ys) := by
  have hall : gaps.nonterminals = ["__goal", "gap", "pad"] := by cbv
  have hpad : "pad" ∈ gaps.nonterminals := by simp [hall]
  have hlive : ∀ m ∈ gaps.nonterminals, gaps.Live m := by
    have hrule : ⟨1, "gap", [.nonterminal "pad", .nonterminal "pad"]⟩ ∈ gaps.productions := by
      simp [gaps]
    have hgap : gaps.Reached "gap" := .start
    have hpad : gaps.Reached "pad" := .part hgap hrule (by simp)
    simp [hall, Live, goalName, hgap, hpad]
  obtain ⟨-, hsets, -⟩ := gaps.follow_exact
  obtain ⟨ts, hlookup, -, hts⟩ := hsets "pad" hpad
  have hvalue : gaps.allFollow.lookup "pad" = some [" ", "$"] := by cbv
  obtain rfl : [" ", "$"] = ts := Option.some.inj (hvalue.symm.trans hlookup)
  exact ⟨hpad, hlive, hts hlive⟩

end Grammar

end Slr
