import Slr.Proofs.Automaton.Paths

/-! # Numbers of states

States are numbered as they are met. Going through the successors of all states, row by
row and in a row by the names of the symbols, each is a state that was met before, or it
gets the next number; so states are met first in the order of their numbers. Nothing leads
to state 0. -/

namespace Slr.Automaton

variable {g : Grammar} {a : Automaton} {q r i j n m k : Nat} {x : Symbol} {rs rs' : List Nat}

/-! ## Numbers one by one -/

/-- Of numbers that are gone through, each is one of those known so far or the next; `n` are
known before and `m` behind all. -/
inductive Counts : Nat → List Nat → Nat → Prop
  | nil (n : Nat) : Counts n [] n
  | old {n m r : Nat} {rs : List Nat} (known : r < n) (rest : Counts n rs m) : Counts n (r :: rs) m
  | new {n m : Nat} {rs : List Nat} (rest : Counts (n + 1) rs m) : Counts n (n :: rs) m

namespace Counts

theorem append (h : Counts n rs m) (h' : Counts m rs' k) : Counts n (rs ++ rs') k := by
  induction h with
  | nil => exact h'
  | old known _ ih => exact .old known (ih h')
  | new _ ih => exact .new (ih h')

theorem mem (h : Counts n rs m) (hn : n ≤ i) (hm : i < m) : i ∈ rs := by
  induction h with
  | nil => omega
  | old _ _ ih => exact List.mem_cons_of_mem _ (ih hn hm)
  | @new n m rs _ ih =>
    by_cases hi : i = n
    · simp [hi]
    · exact List.mem_cons_of_mem _ (ih (by omega) hm)

/-- Where a number stands, each smaller one that was not known stands before it. -/
theorem exists_before (h : Counts n rs m) (hn : n ≤ i) (hij : i < j) {p : Nat}
    (hp : rs[p]? = some j) : ∃ p', p' < p ∧ rs[p']? = some i := by
  induction h generalizing p with
  | nil => simp at hp
  | old known _ ih =>
    cases p with
    | zero =>
      cases hp
      omega
    | succ p =>
      obtain ⟨p', hlt, hp'⟩ := ih hn hp
      exact ⟨p' + 1, Nat.succ_lt_succ hlt, hp'⟩
  | @new n m rs _ ih =>
    cases p with
    | zero =>
      cases hp
      omega
    | succ p =>
      by_cases hi : i = n
      · exact ⟨0, Nat.succ_pos p, by simp [hi]⟩
      · obtain ⟨p', hlt, hp'⟩ := ih (by omega) hp
        exact ⟨p' + 1, Nat.succ_lt_succ hlt, hp'⟩

end Counts

/-! ## The numbers that the search gives -/

theorem intern_counts (states : List ItemSet) (items : ItemSet) :
    Counts states.length [(intern states items).2] (intern states items).1.length := by
  unfold intern
  cases hf : states.findIdx? (· == items) with
  | some i => exact .old (List.findIdx?_eq_some_iff_getElem.mp hf).1 (.nil _)
  | none =>
    rw [List.length_append]
    exact .new (.nil _)

theorem foldl_counts {items : ItemSet} (symbols : List Symbol) {known : List ItemSet × Successors}
    (h : Counts n (known.2.map Prod.snd) known.1.length) :
    Counts n ((symbols.foldl (addSuccessor g items) known).2.map Prod.snd)
      (symbols.foldl (addSuccessor g items) known).1.length := by
  induction symbols generalizing known with
  | nil => exact h
  | cons x symbols ih =>
    refine ih ?_
    rw [addSuccessor, List.map_append]
    exact h.append (intern_counts _ _)

theorem explore_counts {fuel : Nat} {states : List ItemSet} {successors : List Successors}
    (h : Counts 1 (successors.flatMap fun row => row.map Prod.snd) states.length) :
    Counts 1 ((explore g fuel states successors).successors.flatMap fun row => row.map Prod.snd)
      (explore g fuel states successors).states.length := by
  induction fuel generalizing states successors with
  | zero => exact h
  | succ fuel ih =>
    unfold explore
    cases states[successors.length]? with
    | none => exact h
    | some items =>
      refine ih ?_
      rw [List.flatMap_append, List.flatMap_singleton]
      exact h.append (foldl_counts _ (.nil _))

theorem build_counts (g : Grammar) :
    Counts 1 ((build g).successors.flatMap fun row => row.map Prod.snd) (build g).states.length :=
  explore_counts (.nil 1)

/-! ## Edges in their order -/

/-- All edges: by the state that they are from, and those from one as its row has them. -/
def edges (a : Automaton) : List ((Nat × Symbol) × Nat) :=
  a.successors.zipIdx.flatMap fun row => row.1.map fun e => ((row.2, e.1), e.2)

/-- Edges are ordered by the state that they are from and then by the name of their symbol. -/
def Before (d e : Nat × Symbol) : Prop := d.1 < e.1 ∨ d.1 = e.1 ∧ d.2.name < e.2.name

theorem Before.trans {d e f : Nat × Symbol} (h : Before d e) (h' : Before e f) : Before d f := by
  rcases h with h | ⟨heq, h⟩
  · rcases h' with h' | ⟨heq', -⟩
    · exact .inl (Nat.lt_trans h h')
    · exact .inl (heq' ▸ h)
  · rcases h' with h' | ⟨heq', h'⟩
    · exact .inl (heq ▸ h')
    · exact .inr ⟨heq.trans heq', String.lt_trans h h'⟩

/-- The edge that a state is met over first. -/
def Discovers (a : Automaton) (d : Nat × Symbol) (r : Nat) : Prop :=
  (a.successorsOf d.1).lookup d.2 = some r ∧
    ∀ e : Nat × Symbol, (a.successorsOf e.1).lookup e.2 = some r → e = d ∨ Before d e

theorem targets_edges (a : Automaton) :
    a.edges.map Prod.snd = a.successors.flatMap fun row => row.map Prod.snd := by
  rw [edges, List.map_flatMap]
  conv_rhs => rw [← List.zipIdx_map_fst 0 a.successors, List.flatMap_map]
  simp only [List.map_map, Function.comp_def]

theorem mem_edges : ((q, x), r) ∈ a.edges ↔ (x, r) ∈ a.successorsOf q := by
  simp only [edges, successorsOf, List.mem_flatMap, List.mem_map, Prod.mk.injEq, Prod.exists,
    List.mem_zipIdx_iff_getElem?]
  constructor
  · rintro ⟨row, _, hrow, _, _, hmem, ⟨rfl, rfl⟩, rfl⟩
    rwa [hrow]
  · intro hmem
    cases hrow : a.successors[q]? with
    | none => simp [hrow] at hmem
    | some row => exact ⟨row, q, hrow, x, r, by simpa [hrow] using hmem, ⟨rfl, rfl⟩, rfl⟩

namespace Canonical

variable (h : Canonical g a)

include h

theorem mem_edges_iff : ((q, x), r) ∈ a.edges ↔ (a.successorsOf q).lookup x = some r :=
  mem_edges.trans ⟨h.lookup_of_mem, Association.mem_of_lookup⟩

theorem edges_pairwise : a.edges.Pairwise fun d e => Before d.1 e.1 := by
  rw [edges, List.pairwise_flatMap]
  constructor
  · intro row hrow
    have hrowOf := h.rowOf_of_getElem? (List.mem_zipIdx_iff_getElem?.mp hrow)
    have hnames : (row.1.map Prod.fst).Pairwise fun x y => x.name < y.name := by
      rw [hrowOf.keys]
      exact g.alphabet_pairwise.filter _
    rw [List.pairwise_map] at hnames ⊢
    exact hnames.imp fun hlt => .inr ⟨rfl, hlt⟩
  · have hplaces : (a.successors.zipIdx.map Prod.snd).Pairwise (· < ·) := by
      rw [List.zipIdx_map_snd]
      exact List.pairwise_lt_range'
    refine (List.pairwise_map.mp hplaces).imp ?_
    intro row row' hlt d hd e he
    obtain ⟨-, -, rfl⟩ := List.mem_map.mp hd
    obtain ⟨-, -, rfl⟩ := List.mem_map.mp he
    exact .inl hlt

/-- States are met first in the order of their numbers. -/
theorem before_of_lt (hcounts : Counts 1 (a.edges.map Prod.snd) a.size) {d e : Nat × Symbol}
    (hd : Discovers a d i) (he : Discovers a e j) (hi : 0 < i) (hij : i < j) : Before d e := by
  obtain ⟨p, hp⟩ := List.getElem?_of_mem (h.mem_edges_iff.mpr he.1)
  obtain ⟨p', hlt, hp'⟩ := hcounts.exists_before hi hij (p := p) (by simp [hp])
  obtain ⟨⟨d', _⟩, hd', rfl⟩ : ∃ e', a.edges[p']? = some e' ∧ e'.2 = i := by simpa using hp'
  have hbefore : Before d' e := by
    obtain ⟨hlt', hget'⟩ := List.getElem?_eq_some_iff.mp hd'
    obtain ⟨hlt, hget⟩ := List.getElem?_eq_some_iff.mp hp
    have hpair := List.pairwise_iff_getElem.mp h.edges_pairwise p' p hlt' hlt ‹_›
    rwa [hget', hget] at hpair
  -- that edge leads to `i` too, so `d` is not behind it
  rcases hd.2 d' (h.mem_edges_iff.mp (List.mem_of_getElem? hd')) with rfl | hfirst
  · exact hbefore
  · exact hfirst.trans hbefore

theorem exists_discovers (hcounts : Counts 1 (a.edges.map Prod.snd) a.size) (hi : 0 < i)
    (hlt : i < a.size) : ∃ d, Discovers a d i := by
  obtain ⟨e, he, hei⟩ := List.mem_map.mp (hcounts.mem hi hlt)
  -- the first of all edges that lead there
  cases hfind : a.edges.find? fun e => e.2 == i with
  | none => simpa [hei] using List.find?_eq_none.mp hfind e he
  | some d =>
    obtain ⟨hd, earlier, later, hsplit, hnone⟩ := List.find?_eq_some_iff_append.mp hfind
    obtain rfl : d.2 = i := by simpa using hd
    refine ⟨d.1, h.mem_edges_iff.mp (List.mem_of_find?_eq_some hfind), ?_⟩
    intro e he
    have hmem := h.mem_edges_iff.mpr he
    rw [hsplit] at hmem
    rcases List.mem_append.mp hmem with hmem | hmem
    · simpa using hnone _ hmem
    · rcases List.mem_cons.mp hmem with heq | hmem
      · exact .inl (congrArg Prod.fst heq)
      · have hpair := h.edges_pairwise
        rw [hsplit, List.pairwise_append] at hpair
        exact .inr ((List.pairwise_cons.mp hpair.2.1).1 _ hmem)

end Canonical

/-! ## State 0 -/

theorem dot_eq_zero_of_initial {it : Item} (hit : it ∈ initial g) : it.dot = 0 := by
  have hbrought := Grammar.mem_initial_iff.mp hit
  cases hbrought with
  | seed hseed =>
    obtain rfl := List.mem_singleton.mp hseed
    rfl
  | predict => rfl

theorem exists_mem_goto {items : ItemSet} (hitems : List.Sublist items g.items) {it : Item}
    (hit : it ∈ items) (hnext : it.next = some x) : ∃ it' ∈ g.goto items x, 0 < it'.dot := by
  obtain ⟨it', hadv⟩ := Item.exists_advance hnext
  refine ⟨it', (Grammar.mem_goto_iff hitems).mpr (.seed ?_), ?_⟩
  · exact Item.mem_advanced_iff.mpr ⟨it, hit, hnext, hadv⟩
  · rw [(Item.advance?_eq_some_iff.mp hadv).2]
    exact Nat.succ_pos _

/-- Nothing leads to state 0, which has no item that has seen a symbol. -/
theorem Canonical.target_pos (h : Canonical g a) (edge : (a.successorsOf q).lookup x = some r) :
    0 < r := by
  obtain ⟨hq, -, ⟨it, hit, hnext⟩, hstate⟩ := h.edge_spec edge
  apply Nat.pos_of_ne_zero
  rintro rfl
  rw [h.initial_eq] at hstate
  obtain ⟨it', hit', hdot⟩ := exists_mem_goto (h.sublist_items hq) hit hnext
  rw [← Option.some.inj hstate] at hit'
  have hzero := dot_eq_zero_of_initial hit'
  omega

end Slr.Automaton
