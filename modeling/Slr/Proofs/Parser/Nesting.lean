import Slr.Proofs.Derivation.Shape
import Slr.Proofs.Parser.Agreement

/-! # How deep calls nest

The entries of a parse are the moves of the table-driven parser one by one, and the
calls that are open at each of them are its stack. So calls nest as deep as the
stack, and no deeper for a list however long: what stands for the items of a left
recursive list that were read is one symbol. -/

namespace Slr.Ascent

open ParseTree StackParser

variable {g : Grammar} {follow : Lookahead} {t : Table} {semantics : Semantics}
  {fuel limit n : Nat}
  {stack : Stack} {s s' : Session} {e : Entry} {p : Production}

/-- Every move of the table-driven parser is an entry, if there is fuel enough and no stack up to
there is too high. -/
theorem exists_entry (hr : t.Renders (Automaton.build g) follow)
    (hlow : Low t semantics limit s (n + 1))
    (hrun : (next t semantics)^[n] (.running bottom, s) = (.running stack, s')) :
    ∃ fuel e, (entries t semantics limit fuel s)[n]? = some e := by
  have hlt : n < (entries t semantics limit (2 * (n + 1)) s).length := by
    apply Nat.lt_of_not_le
    intro hle
    cases hresult : (watch t semantics (2 * (n + 1)) limit [] 0 [] s).result with
    | none => exact Nat.not_le_of_lt (lt_entries_of_unfinished hresult) hle
    | some o =>
      have harrives := (tracks_parse hr semantics limit _ s).result o hresult
      rw [← entries] at harrives
      cases harrives with
      | refused moves same high =>
        exact Nat.not_le_of_lt high (hlow _ (Nat.lt_succ_of_le hle) _ _ moves)
      | returned moves same fits =>
        -- nothing runs on when the start state's procedure has returned
        obtain ⟨stack', s₂, hearlier⟩ := running_of_iterate hrun hle
        rw [hearlier] at moves
        obtain ⟨result, s₃⟩ := o
        cases result with
        | error e => cases moves
        | ok r =>
          cases r with
          | accepted v => cases moves
          | reduction r => exact absurd fits not_fits_nil
  exact ⟨_, _, List.getElem?_eq_getElem hlt⟩

/-- What is open at an entry, and how many steps were taken before it. -/
theorem mirrors_of_entry (hr : t.Renders (Automaton.build g) follow)
    (he : (entries t semantics limit fuel s)[n]? = some e)
    (hrun : (next t semantics)^[n] (.running bottom, s) = (.running stack, s')) :
    e.session.Same s' ∧ e.session.steps.size = s.steps.size + n ∧ Mirrors t stack e.calls := by
  obtain ⟨stack₁, s₁, hmoves, hsame, hmirrors, -⟩ :=
    (tracks_parse hr semantics limit fuel s).entry n e he
  rw [hrun] at hmoves
  cases hmoves
  obtain ⟨forest, hreads⟩ := reads_iterate hr hrun
  refine ⟨hsame, ?_, hmirrors⟩
  have hlength := congrArg List.length hreads.trace
  rw [List.length_append, hreads.count] at hlength
  rw [hsame.steps]
  simpa [Session.trace] using hlength

/-! ## Repetition -/

/-- The operations that read more items of a list: the trees of an item, then its reduction. -/
def repetition (p : Production) (items : List (List ParseTree)) : List Operation :=
  items.flatMap fun ts => operationsOf ts ++ [.reduce p]

/-- The trees that a left recursive production puts behind its own left hand side. -/
def Repeats (g : Grammar) (p : Production) (ts : List ParseTree) : Prop :=
  (∀ T ∈ ts, T.Valid g) ∧ .nonterminal p.lhs :: ts.map root = p.rhs

theorem foldl_onRoots_repetition {items : List (List ParseTree)}
    (h : ∀ ts ∈ items, Repeats g p ts) (xs : List Symbol) :
    (repetition p items).foldl Operation.onRoots (.nonterminal p.lhs :: xs) =
      .nonterminal p.lhs :: xs := by
  induction items with
  | nil => rfl
  | cons ts items ih =>
    obtain ⟨hvalid, hroots⟩ := h ts (by simp)
    have hforest := foldl_onRoots_forest (fun T hT => foldl_onRoots (hvalid T hT))
      (.nonterminal p.lhs :: xs)
    have hsize : p.size = (ts.map root).reverse.length + 1 := by simp [Production.size, ← hroots]
    have hdrop : ((ts.map root).reverse ++ .nonterminal p.lhs :: xs).drop p.size = xs := by
      rw [hsize, ← List.drop_drop, List.drop_left, List.drop_succ_cons, List.drop_zero]
    rw [repetition, List.flatMap_cons, List.foldl_append, List.foldl_append, hforest]
    simp only [List.foldl_cons, List.foldl_nil, Operation.onRoots, hdrop]
    exact ih fun us hus => h us (by simp [hus])

/-- A stack on which more items of a list have been read has the same states. -/
theorem states_of_repetition {s₀ s₁ s₂ : Session} {m : Nat} {stack₁ stack₂ : Stack}
    {forest₁ forest₂ : List ParseTree} {ops : List Operation} {first : Production}
    {items : List (List ParseTree)} (hitems : ∀ ts ∈ items, Repeats g p ts)
    (hfirst : first.lhs = p.lhs) (h₁ : Reads g semantics s₀ n stack₁ s₁ forest₁)
    (h₂ : Reads g semantics s₀ m stack₂ s₂ forest₂)
    (htrace₁ : s₁.trace = s₀.trace ++ (ops ++ [.reduce first]))
    (htrace₂ : s₂.trace = s₁.trace ++ repetition p items) :
    stack₂.map Prod.fst = stack₁.map Prod.fst := by
  have hroots₁ := roots_of_reads h₁ htrace₁
  have hroots₂ := roots_of_reads h₂ (htrace₂.trans (by rw [htrace₁, List.append_assoc]))
  simp only [List.foldl_append, List.foldl_cons, List.foldl_nil, Operation.onRoots, hfirst]
    at hroots₁ hroots₂
  rw [foldl_onRoots_repetition hitems, ← hroots₁] at hroots₂
  exact Automaton.Spells.unique h₂.represents.way (hroots₂ ▸ h₁.represents.way)

/-! ## Whole parses -/

/-- The entries of the procedures, in the order in which they are called, are the moves
of the table-driven parser, up to the first stack that is higher than the calls that may be
open, and at each of them the open calls are those of the states on its stack: the call of a
state holds the last values up to that place, as many as the state is deep, and there are so
many. From one reduction of a list to another, however many items were read between them, no
call is added. -/
theorem open_calls_mirror (ht : (Automaton.build g).table follow = .ok t) (semantics : Semantics)
    (s : Session) :
    (∀ limit fuel, (watch t semantics fuel limit [] 0 [] s).result =
      call t semantics fuel limit 0 [] s) ∧
    (∀ limit n, (∃ fuel e, (entries t semantics limit fuel s)[n]? = some e) ↔
      Low t semantics limit s (n + 1) ∧
        ∃ stack s', (next t semantics)^[n] (.running bottom, s) = (.running stack, s')) ∧
    (∀ limit fuel n e stack s', (entries t semantics limit fuel s)[n]? = some e →
      (next t semantics)^[n] (.running bottom, s) = (.running stack, s') →
      e.session.Same s' ∧ e.session.steps.size = s.steps.size + n ∧ Mirrors t stack e.calls) ∧
    ∀ (limit fuel n m : Nat) (e₁ e₂ : Entry) (ops : List Operation) (first p : Production)
      (items : List (List ParseTree)), (entries t semantics limit fuel s)[n]? = some e₁ →
      (entries t semantics limit fuel s)[m]? = some e₂ → first.lhs = p.lhs →
      (∀ ts ∈ items, Repeats g p ts) →
      e₁.session.trace = s.trace ++ (ops ++ [.reduce first]) →
      e₂.session.trace = e₁.session.trace ++ repetition p items →
      e₂.calls.map Call.state = e₁.calls.map Call.state := by
  have hr := Automaton.table_renders (Automaton.build_canonical g) ht
  refine ⟨fun limit fuel => watch_result [], ?_, fun _ _ _ _ _ _ => mirrors_of_entry hr, ?_⟩
  · intro limit n
    constructor
    · intro h
      obtain ⟨fuel, e, he⟩ := h
      obtain ⟨stack, s', hmoves, -⟩ := (tracks_parse hr semantics limit fuel s).entry n e he
      refine ⟨?_, stack, s', hmoves⟩
      intro m hm stack₁ s₁ hrun
      have hlength : n < (entries t semantics limit fuel s).length :=
        (List.getElem?_eq_some_iff.mp he).1
      exact low_of_entries hr m (Nat.lt_of_le_of_lt (Nat.le_of_lt_succ hm) hlength) stack₁ s₁ hrun
    · intro h
      obtain ⟨hlow, stack, s', hrun⟩ := h
      exact exists_entry hr hlow hrun
  · intro limit fuel n m e₁ e₂ ops first p items he₁ he₂ hfirst hitems htrace₁ htrace₂
    have htracks := tracks_parse hr semantics limit fuel s
    obtain ⟨stack₁, s₁, hmoves₁, hsame₁, hmirrors₁, -⟩ := htracks.entry n e₁ he₁
    obtain ⟨stack₂, s₂, hmoves₂, hsame₂, hmirrors₂, -⟩ := htracks.entry m e₂ he₂
    obtain ⟨forest₁, hreads₁⟩ := reads_iterate hr hmoves₁
    obtain ⟨forest₂, hreads₂⟩ := reads_iterate hr hmoves₂
    rw [hsame₁.trace] at htrace₁ htrace₂
    rw [hsame₂.trace] at htrace₂
    rw [hmirrors₁.states, hmirrors₂.states]
    exact states_of_repetition hitems hfirst hreads₁ hreads₂ htrace₁ htrace₂

/-- Behind the empty list and behind both items the same procedures are open. -/
theorem open_calls_mirror_listing :
    ∃ e₁ e₂, (entries listingTable .default 3 9 (.ofStream twoItems))[1]? = some e₁ ∧
      (entries listingTable .default 3 9 (.ofStream twoItems))[5]? = some e₂ ∧
      e₁.calls.map Call.state = [1, 0] ∧ e₂.calls.map Call.state = e₁.calls.map Call.state := by
  let item (n : Int) : ParseTree := .leaf ⟨"item", .int n, 0, 0⟩
  let more : Production := ⟨1, "list", [.nonterminal "list", .terminal "item"]⟩
  have hrepeats (n : Int) : Repeats listing more [item n] := ⟨by simpa using .leaf _, rfl⟩
  obtain ⟨-, -, -, hrepetition⟩ :=
    open_calls_mirror listing_table .default (.ofStream twoItems)
  refine ⟨_, _, rfl, rfl, rfl, ?_⟩
  exact hrepetition 3 9 1 5 _ _ [] ⟨2, "list", []⟩ more [[item 1], [item 2]] rfl rfl rfl
    (by simp [hrepeats]) rfl rfl

end Slr.Ascent
