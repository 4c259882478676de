import Slr.Proofs.Automaton.Numbering
import Slr.Proofs.Automaton.Stacked

/-! # The worklist makes the automaton

Between two rounds the worklist holds what the search for states holds: the states, each
under its number, the rows of those that were taken up, an empty row for each of the
others, and these wait in the order of their numbers. A round takes up the first of them,
as the search does, so the worklist ends and has what `build` has. -/

namespace Slr

variable {g : Grammar} {items : ItemSet} {states : List ItemSet} {rows : List Successors}
  {row : Successors} {x : Symbol} {i : Nat}

/-! ## Symbols in the order of the alphabet -/

theorem mapM_eq_map {ε α β : Type} {f : α → Except ε β} {f' : α → β} {l : List α}
    (h : ∀ a ∈ l, f a = .ok (f' a)) : l.mapM f = .ok (l.map f') := by
  induction l with
  | nil => rfl
  | cons a l ih =>
    rw [List.mapM_cons, h a List.mem_cons_self, ih fun b hb => h b (List.mem_cons_of_mem _ hb)]
    rfl

/-- The place of a symbol in the alphabet. -/
def Grammar.symbolPlace (g : Grammar) (x : Symbol) : Nat := (g.symbolKey? x.name).getD 0

theorem Grammar.symbolPlace_eq (h : g.alphabet[i]? = some x) : g.symbolPlace x = i := by
  rw [symbolPlace, symbolKey?_eq h, Option.getD_some]

theorem Grammar.eq_of_symbolPlace {y : Symbol} (hx : x ∈ g.alphabet) (hy : y ∈ g.alphabet)
    (h : g.symbolPlace x = g.symbolPlace y) : x = y := by
  obtain ⟨i, hi⟩ := List.getElem?_of_mem hx
  obtain ⟨j, hj⟩ := List.getElem?_of_mem hy
  rw [symbolPlace_eq hi, symbolPlace_eq hj] at h
  rw [h, hj] at hi
  exact (Option.some.inj hi).symm

namespace Worklist

theorem mem_nextSymbols_iff (hitems : List.Sublist items g.items) :
    x ∈ nextSymbols items ↔ x ∈ Automaton.expected g items := by
  rw [Automaton.mem_expected_iff hitems]
  simp [nextSymbols, and_comm]

theorem expected_pairwise (g : Grammar) (items : ItemSet) :
    (Automaton.expected g items).Pairwise fun x y => g.symbolPlace x ≤ g.symbolPlace y := by
  refine List.Pairwise.filter _ (List.pairwise_iff_getElem.mpr fun i j hi hj hij => ?_)
  rw [Grammar.symbolPlace_eq (List.getElem?_eq_getElem hi),
    Grammar.symbolPlace_eq (List.getElem?_eq_getElem hj)]
  exact Nat.le_of_lt hij

/-- By their places, the next symbols are those that the search goes through. -/
theorem mergeSort_eq_expected (hitems : List.Sublist items g.items) :
    (nextSymbols items).mergeSort (fun x y => decide (g.symbolPlace x ≤ g.symbolPlace y)) =
      Automaton.expected g items := by
  have hperm : (nextSymbols items).Perm (Automaton.expected g items) :=
    (List.perm_ext_iff_of_nodup (Reachability.eraseDups_nodup _) (g.alphabet_nodup.filter _)).mpr
      fun _ => mem_nextSymbols_iff hitems
  have hsorted : ((nextSymbols items).mergeSort fun x y =>
      decide (g.symbolPlace x ≤ g.symbolPlace y)).Pairwise
        fun x y => g.symbolPlace x ≤ g.symbolPlace y := by
    refine (List.pairwise_mergeSort ?_ ?_ _).imp fun h => of_decide_eq_true h
    · intro x y z hxy hyz
      simp only [decide_eq_true_eq] at hxy hyz ⊢
      exact Nat.le_trans hxy hyz
    · intro x y
      simpa using Nat.le_total (g.symbolPlace x) (g.symbolPlace y)
  have hmem := (List.mergeSort_perm (nextSymbols items) fun x y =>
    decide (g.symbolPlace x ≤ g.symbolPlace y)).trans hperm
  refine List.Perm.eq_of_pairwise ?_ hsorted (expected_pairwise g items) hmem
  intro x y hx hy hxy hyx
  exact Grammar.eq_of_symbolPlace (List.mem_filter.mp (hmem.mem_iff.mp hx)).1
    (List.mem_filter.mp hy).1 (Nat.le_antisymm hxy hyx)

theorem possible_eq (hitems : List.Sublist items g.items) :
    possible g items = .ok (Automaton.expected g items) := by
  have hplaced : (nextSymbols items).mapM (placed g) =
      .ok ((nextSymbols items).map fun x => (g.symbolPlace x, x)) := by
    refine mapM_eq_map fun x hx => ?_
    have halphabet := (List.mem_filter.mp ((mem_nextSymbols_iff hitems).mp hx)).1
    obtain ⟨i, hi⟩ := List.getElem?_of_mem halphabet
    rw [placed, Grammar.symbolKey?_eq hi, Grammar.symbolPlace_eq hi]
  have hsorted : (((nextSymbols items).map fun x => (g.symbolPlace x, x)).mergeSort
        fun a b => decide (a.1 ≤ b.1)).map Prod.snd =
      (nextSymbols items).mergeSort fun x y => decide (g.symbolPlace x ≤ g.symbolPlace y) := by
    rw [← List.map_mergeSort (r := fun x y => decide (g.symbolPlace x ≤ g.symbolPlace y))
      (by simp), List.map_map]
    exact List.map_id _
  rw [possible, hplaced, ← mergeSort_eq_expected hitems, ← hsorted]
  rfl

/-! ## The worklist and the search -/

/-- Between two rounds. -/
def between (g : Grammar) (states : List ItemSet) (rows : List Successors) : Worklist :=
  ⟨g, states, states.zipIdx, rows ++ List.replicate (states.length - rows.length) [],
    states.drop rows.length⟩

/-- Inside of a round, which has filled a row so far. -/
def amid (g : Grammar) (states : List ItemSet) (rows : List Successors) (row : Successors) :
    Worklist :=
  ⟨g, states, states.zipIdx,
    rows ++ row :: List.replicate (states.length - (rows.length + 1)) [],
    states.drop (rows.length + 1)⟩

theorem amid_eq_between : amid g states rows row = between g states (rows ++ [row]) := by
  simp [amid, between]

/-- A set of items has the number that it was met with. -/
theorem lookup_zipIdx (states : List ItemSet) (items : ItemSet) (n : Nat) :
    (states.zipIdx n).lookup items = (states.findIdx? (· == items)).map (· + n) := by
  induction states generalizing n with
  | nil => rfl
  | cons first rest ih =>
    rw [List.zipIdx_cons, List.findIdx?_cons]
    by_cases h : items = first
    · simp [h]
    · have hne : (first == items) = false := beq_eq_false_iff_ne.mpr (Ne.symm h)
      rw [Association.lookup_cons_ne h, ih, hne]
      simp [Function.comp_def, Nat.add_comm 1, Nat.add_assoc]

theorem lookup_keys (states : List ItemSet) (items : ItemSet) :
    states.zipIdx.lookup items = states.findIdx? (· == items) := by
  rw [lookup_zipIdx]
  simp

theorem lookup_zipIdx_iff (h : states.Nodup) :
    states.zipIdx.lookup items = some i ↔ states[i]? = some items := by
  have hkeys : (states.zipIdx.map Prod.fst).Nodup := by rwa [List.zipIdx_map_fst]
  have hmem : (items, i) ∈ states.zipIdx ↔ states[i]? = some items :=
    List.mem_zipIdx_iff_getElem?
  exact ⟨fun hi => hmem.mp (Association.mem_of_lookup hi),
    fun hi => Association.lookup_of_mem hkeys (hmem.mpr hi)⟩

theorem put_of_new (hx : x ∉ row.map Prod.fst) : row.put x i = row ++ [(x, i)] := by
  rw [Successors.put, if_neg]
  simpa using hx

theorem addSuccessor_amid : (amid g states rows row).addSuccessor rows.length x i =
    .ok (amid g states rows (row.put x i)) := by
  simp [addSuccessor, amid]

/-- A new set of items has the next number and an empty row, and waits behind all others. -/
theorem amid_append (hlt : rows.length < states.length) (items : ItemSet) :
    amid g (states ++ [items]) rows row =
      ⟨g, states ++ [items], states.zipIdx ++ [(items, states.length)],
        rows ++ row :: List.replicate (states.length - (rows.length + 1)) [] ++ [[]],
        states.drop (rows.length + 1) ++ [items]⟩ := by
  have hlength : (states ++ [items]).length - (rows.length + 1) =
      states.length - (rows.length + 1) + 1 := by
    rw [List.length_append, List.length_singleton]
    omega
  rw [amid, hlength, List.replicate_succ', List.drop_append_of_le_length hlt, List.zipIdx_append]
  simp

/-- One symbol more, as the search adds it to a row. -/
theorem connect_amid (hlt : rows.length < states.length) (hx : x ∉ row.map Prod.fst)
    (hne : g.goto items x ≠ []) :
    connect items rows.length (amid g states rows row) x =
      .ok (amid g (Automaton.addSuccessor g items (states, row) x).1 rows
        (Automaton.addSuccessor g items (states, row) x).2) := by
  have hlookup := lookup_keys states (g.goto items x)
  have hempty : (g.goto items x).isEmpty = false := by simpa using hne
  unfold connect register Automaton.addSuccessor Automaton.intern
  cases hfind : states.findIdx? (· == g.goto items x) with
  | some i =>
    rw [hfind] at hlookup
    simp only [amid, hempty, hlookup, Bool.false_eq_true, if_false]
    rw [← put_of_new hx]
    exact addSuccessor_amid
  | none =>
    rw [hfind] at hlookup
    simp only [amid, hempty, hlookup, Bool.false_eq_true, if_false, if_true]
    rw [← put_of_new hx, ← amid_append hlt]
    exact addSuccessor_amid

theorem foldlM_amid (symbols : List Symbol) (hlt : rows.length < states.length)
    (hnew : (row.map Prod.fst ++ symbols).Nodup) (hne : ∀ x ∈ symbols, g.goto items x ≠ []) :
    symbols.foldlM (connect items rows.length) (amid g states rows row) =
      .ok (amid g (symbols.foldl (Automaton.addSuccessor g items) (states, row)).1 rows
        (symbols.foldl (Automaton.addSuccessor g items) (states, row)).2) := by
  induction symbols generalizing states row with
  | nil => rfl
  | cons x symbols ih =>
    have hx : x ∉ row.map Prod.fst := by
      intro hmem
      exact (List.nodup_append.mp hnew).2.2 x hmem x List.mem_cons_self rfl
    have hkeys : (Automaton.addSuccessor g items (states, row) x).2.map Prod.fst =
        row.map Prod.fst ++ [x] := by
      simp [Automaton.addSuccessor]
    have hgrows : states.length ≤ (Automaton.addSuccessor g items (states, row) x).1.length :=
      (Automaton.intern_spec rfl).1.length_le
    rw [List.foldlM_cons, connect_amid hlt hx (hne x List.mem_cons_self), List.foldl_cons]
    refine ih (Nat.lt_of_lt_of_le hlt hgrows) ?_ fun y hy => hne y (List.mem_cons_of_mem _ hy)
    rw [hkeys, List.append_assoc]
    exact hnew

/-- A round takes up the state that the search takes up. -/
theorem takeUp_between (h : Automaton.Explored g states rows)
    (hitems : states[rows.length]? = some items) {known : List ItemSet × Successors}
    (hknown : (Automaton.expected g items).foldl (Automaton.addSuccessor g items) (states, []) =
      known) :
    takeUp (amid g states rows []) items = .ok (between g known.1 (rows ++ [known.2])) := by
  obtain ⟨hlt, hget⟩ := List.getElem?_eq_some_iff.mp hitems
  have hsublist := h.sublist items (List.mem_of_getElem? hitems)
  -- nothing that is looked up is missing, and no successor is empty
  have hkey : (amid g states rows []).keys.lookup items = some rows.length :=
    (lookup_zipIdx_iff h.nodup).mpr hitems
  have hne : ∀ x ∈ Automaton.expected g items, g.goto items x ≠ [] := by
    intro x hx
    obtain ⟨-, it, hit, hnext⟩ := (Automaton.mem_expected_iff hsublist).mp hx
    obtain ⟨it', hit', -⟩ := Automaton.exists_mem_goto hsublist hit hnext
    exact List.ne_nil_of_mem hit'
  have hrow : (Automaton.expected g items).foldlM (connect items rows.length)
      (amid g states rows []) = .ok (amid g known.1 rows known.2) :=
    hknown ▸ foldlM_amid _ hlt (g.alphabet_nodup.filter _) hne
  have hpossible : possible (amid g states rows []).grammar items =
      .ok (Automaton.expected g items) := possible_eq hsublist
  rw [takeUp, hkey]
  simp only [hpossible, bind, Except.bind]
  rw [hrow, amid_eq_between]

theorem run_of_pending_nil {w : Worklist} {rounds : Nat} (h : w.pending = []) :
    run rounds w = some (.ok w) := by
  cases rounds <;> simp [run, h]

theorem run_succ {w w' : Worklist} {rest : List ItemSet} {rounds : Nat}
    (h : w.pending = items :: rest) (hround : takeUp { w with pending := rest } items = .ok w') :
    run (rounds + 1) w = run rounds w' := by
  simp only [run, h, hround]

theorem between_eq (hitems : states[rows.length]? = some items) :
    between g states rows =
      { amid g states rows [] with pending := items :: states.drop (rows.length + 1) } := by
  obtain ⟨hlt, rfl⟩ := List.getElem?_eq_some_iff.mp hitems
  have hlength : states.length - rows.length = states.length - (rows.length + 1) + 1 := by omega
  rw [between, amid, hlength, List.replicate_succ, List.drop_eq_getElem_cons hlt]

/-- Where the search has taken up all states, the worklist ends with what the search has. -/
theorem run_between {rounds : Nat} (h : Automaton.Explored g states rows)
    (hdone : (Automaton.explore g rounds states rows).states.length ≤
      (Automaton.explore g rounds states rows).successors.length) :
    run rounds (between g states rows) =
      some (.ok (between g (Automaton.explore g rounds states rows).states
        (Automaton.explore g rounds states rows).successors)) := by
  induction rounds generalizing states rows with
  | zero => exact run_of_pending_nil (List.drop_eq_nil_iff.mpr hdone)
  | succ rounds ih =>
    unfold Automaton.explore at hdone ⊢
    cases hnext : states[rows.length]? with
    | none => exact run_of_pending_nil (List.drop_eq_nil_iff.mpr (List.getElem?_eq_none_iff.mp hnext))
    | some items =>
      rw [hnext] at hdone
      have htake := takeUp_between h hnext rfl
      rw [between_eq hnext, run_succ rfl htake]
      exact ih (Automaton.explored_step h hnext rfl) hdone

theorem start_eq (g : Grammar) : start g = between g [Automaton.initial g] [] := rfl

/-- Enough rounds empty the queue. -/
theorem run_start (g : Grammar) {rounds : Nat} (h : Nat.pow 2 g.items.length ≤ rounds) :
    run rounds (start g) =
      some (.ok (between g (Automaton.build g).states (Automaton.build g).successors)) := by
  have hdone := (Automaton.build_canonical g).length_eq.ge
  have hbuild : Automaton.explore g rounds [Automaton.initial g] [] = Automaton.build g :=
    Automaton.explore_of_done h hdone
  rw [start_eq, ← hbuild]
  exact run_between (Automaton.explored_initial g) (hbuild ▸ hdone)

/-! ## What the worklist ends with -/

/-- The collection of all sets of items of a grammar that symbols lead to. -/
structure Collection (g : Grammar) (w : Worklist) : Prop where
  waits_nothing : w.pending = []
  nodup : w.states.Nodup
  nonempty : ∀ items ∈ w.states, items ≠ []
  /-- State 0 is the closure of the goal's first item. -/
  first : w.states[0]? = some (g.closure [Item.start g.goal])
  /-- A set of items is looked up under the number that it has among the states. -/
  keys : ∀ (items : ItemSet) (i : Nat), w.keys.lookup items = some i ↔ w.states[i]? = some items
  rows : w.successors.length = w.states.length
  /-- No row has two entries for a symbol. -/
  entries : ∀ row ∈ w.successors, (row.map Prod.fst).Nodup
  /-- A state has a successor over each symbol that is next in an item, the end of the input
  apart, and over no other. -/
  edges : ∀ (i : Nat) (items : ItemSet), w.states[i]? = some items → ∀ x : Symbol,
    (∃ r, (w.automaton.successorsOf i).lookup x = some r) ↔
      x ≠ .terminal endName ∧ ∃ it ∈ items, it.next = some x
  /-- The successor is what the items of the state come to. -/
  targets : ∀ (i : Nat) (items : ItemSet), w.states[i]? = some items → ∀ (x : Symbol) (r : Nat),
    (w.automaton.successorsOf i).lookup x = some r → w.states[r]? = some (g.goto items x)
  /-- Some symbols lead from state 0 to each state. -/
  reached : ∀ i, i < w.states.length → ∃ qs xs, w.automaton.Spells (i :: qs) xs
  /-- Nothing leads back to state 0, -/
  unled : ∀ (q : Nat) (x : Symbol), (w.automaton.successorsOf q).lookup x ≠ some 0
  /-- and each other state is met over some edge first, -/
  discovered : ∀ i, 0 < i → i < w.states.length → ∃ d, w.automaton.Discovers d i
  /-- in the order of their numbers. -/
  numbered : ∀ (i j : Nat) (d e : Nat × Symbol), i < j →
    w.automaton.Discovers d i → w.automaton.Discovers e j → Automaton.Before d e

theorem collection_between {a : Automaton} (h : a.Canonical g)
    (hcounts : Automaton.Counts 1 (a.edges.map Prod.snd) a.size) :
    Collection g (between g a.states a.successors) := by
  have hsuccessors : (between g a.states a.successors).successors = a.successors := by
    simp [between, h.length_eq]
  have hautomaton : (between g a.states a.successors).automaton = a := by
    obtain rfl := h.grammar_eq
    rw [automaton, hsuccessors]
    rfl
  have hitems {i : Nat} {items : ItemSet} (hi : a.states[i]? = some items) :
      a.items i = items ∧ i < a.states.length :=
    ⟨Automaton.items_eq hi, (List.getElem?_eq_some_iff.mp hi).1⟩
  constructor
  case waits_nothing => simp [between, h.length_eq]
  case nodup => exact h.nodup
  case first => exact h.initial_eq
  case rows =>
    rw [hsuccessors]
    exact h.length_eq
  case nonempty =>
    intro items hmem
    obtain ⟨i, hi⟩ := List.getElem?_of_mem hmem
    obtain ⟨qs, xs, way⟩ := h.reached i (hitems hi).2
    obtain ⟨it, hit⟩ := h.exists_item way
    exact List.ne_nil_of_mem ((hitems hi).1 ▸ hit)
  case keys => exact fun items i => lookup_zipIdx_iff h.nodup
  case entries =>
    intro row hrow
    rw [hsuccessors] at hrow
    obtain ⟨i, hi⟩ := List.getElem?_of_mem hrow
    rw [(h.rowOf_of_getElem? hi).keys]
    exact g.alphabet_nodup.filter _
  all_goals rw [hautomaton]
  case edges =>
    intro i items hi x
    obtain ⟨rfl, hlt⟩ := hitems hi
    constructor
    · rintro ⟨r, edge⟩
      obtain ⟨-, hx, hnext, -⟩ := h.edge_spec edge
      exact ⟨hx, hnext⟩
    · rintro ⟨hx, it, hit, hnext⟩
      exact h.exists_edge hit hnext hx
  case targets =>
    intro i items hi x r edge
    obtain ⟨rfl, hlt⟩ := hitems hi
    exact (h.edge_spec edge).2.2.2
  case reached => exact h.reached
  case unled =>
    intro q x edge
    exact Nat.lt_irrefl 0 (h.target_pos edge)
  case discovered => exact fun i => h.exists_discovers hcounts
  case numbered =>
    intro i j d e hij hd he
    exact h.before_of_lt hcounts hd he (h.target_pos hd.1) hij

/-- For every grammar the worklist ends with the collection, and each closure that is made on
the way ends. -/
theorem collection (g : Grammar) :
    (∃ w, (∀ rounds, Nat.pow 2 g.items.length ≤ rounds → run rounds (start g) = some (.ok w)) ∧
      Collection g w) ∧
    ∀ seeds : List Item, (∀ it ∈ seeds, it.production ∈ g.productions) →
      ∃ steps, ∀ n, steps ≤ n → g.closureBy n seeds = some (g.closure seeds) := by
  refine ⟨⟨_, fun rounds => run_start g, collection_between (Automaton.build_canonical g) ?_⟩,
    fun seeds => Grammar.exists_closureBy⟩
  rw [Automaton.targets_edges]
  exact Automaton.build_counts g

end Worklist

end Slr
